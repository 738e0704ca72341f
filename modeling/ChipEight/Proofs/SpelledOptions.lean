import ChipEight.Proofs.LawfulReader
import Mathlib.Data.List.Nodup
import Mathlib.Data.List.Perm.Basic

/-! Options spelled out in words, and read back by anything that keeps the rules of a command line.
The line is built from its end: behind two dashes stands the program file, and each word in front
adds its own item and names no other argument. What is put into options does not depend on the
order, and what is left out is what the options are without it. -/

namespace ChipEight

open CommandLine Numeral

namespace CommandLine

theorem name_injective {a b : Argument} (h : a.name = b.name) : a = b := by
  have hlong : some a = some b := by rw [← long?_name a, h, long?_name b]
  exact Option.some.inj hlong

/-- A word with the name of an argument behind its dashes names no other. -/
theorem Names.eq_of_name {a b : Argument} {w : String} {rest : List Char} (h : Names a w)
    (hw : w.toList = '-' :: '-' :: (b.name.toList ++ rest)) (hrest : ∀ c ∈ rest.head?, c = '=') :
    b = a := by
  have hsame : ∀ own : List Char, (∀ c ∈ own.head?, c = '=') →
      w.toList = '-' :: '-' :: (a.name.toList ++ own) → b = a := by
    intro own hown hlist
    have htexts : b.name.toList ++ rest = a.name.toList ++ own := by simpa [hw] using hlist
    have hnames : b.name.toList = a.name.toList := by
      rw [← (split_name b hrest).1, htexts, (split_name a hown).1]
    exact name_injective (String.toList_inj.mp hnames)
  cases h with
  | alone => exact hsame [] nofun (by simp)
  | attached value => exact hsame ('=' :: value.toList) (by simp) (by simp)
  | letter hletter hmem hhead =>
    rw [String.toList_ofList] at hw
    obtain rfl := (List.cons.inj hw).2
    exact absurd rfl hhead

/-- The flag alone is named by its letter. -/
theorem Names.eq_of_letter {a : Argument} (h : Names a (String.ofList ['-', 'f'])) :
    Argument.flag .fastForward = a := by
  generalize hw : String.ofList ['-', 'f'] = w at h
  replace hw := congrArg String.toList hw
  cases h with
  | alone => simp at hw
  | attached text => simp at hw
  | letter hletter hmem hhead =>
    rw [String.toList_ofList, String.toList_ofList] at hw
    cases hw
    obtain rfl := List.mem_singleton.mp hmem
    exact Option.some.inj (short?_letter hletter)

/-! ## Words -/

namespace Item

/-- The word that spells the item out. The flag has two spellings. -/
def word (byLetter : Bool) : Item → String
  | hz n => "--hz=" ++ decimal n.toNat
  | cycles n => "--cycles=" ++ decimal n.toNat
  | seed n => "--seed=" ++ decimal n.toNat
  | keys text => "--keys=" ++ text
  | fastForward => if byLetter then "-f" else "--fast-forward"

/-- A word is the name of a setting with a value that is read as the item, or else one of the two
spellings of the flag. -/
theorem word_cases (item : Item) (byLetter : Bool) :
    (∃ setting text, setting.Reads text item ∧
      item.word byLetter = "--" ++ (Argument.setting setting).name ++ "=" ++ text) ∨
    item = .fastForward ∧
      (item.word byLetter = "--" ++ (Argument.flag .fastForward).name ∨
        item.word byLetter = String.ofList ['-', 'f']) := by
  cases item with
  | hz n => exact .inl ⟨.hz, _, .hz (read?_decimal _), rfl⟩
  | cycles n => exact .inl ⟨.cycles, _, .cycles (read?_decimal _), rfl⟩
  | seed n => exact .inl ⟨.seed, _, .seed (read?_decimal _), rfl⟩
  | keys text => exact .inl ⟨.keys, _, .keys text, rfl⟩
  | fastForward =>
    cases byLetter with
    | false => exact .inr ⟨rfl, .inl rfl⟩
    | true => exact .inr ⟨rfl, .inr rfl⟩

theorem word_ne_dashes (item : Item) (byLetter : Bool) : item.word byLetter ≠ "--" := by
  intro h
  have htext := congrArg String.toList h
  cases item with
  | hz n | cycles n | seed n | keys text => simp [word] at htext
  | fastForward => cases byLetter <;> simp [word] at htext

theorem argument_eq_of_names {item : Item} {byLetter : Bool} {a : Argument}
    (h : Names a (item.word byLetter)) : item.argument = a := by
  rcases item.word_cases byLetter with ⟨setting, text, hreads, hword⟩ | ⟨rfl, hword | hword⟩
  · have hlist : (item.word byLetter).toList =
        '-' :: '-' :: ((Argument.setting setting).name.toList ++ '=' :: text.toList) := by
      simp [hword]
    rw [hreads.argument_eq]
    exact h.eq_of_name hlist (by simp)
  · have hlist : (fastForward.word byLetter).toList =
        '-' :: '-' :: ((Argument.flag .fastForward).name.toList ++ []) := by
      simp [hword]
    exact h.eq_of_name hlist nofun
  · rw [hword] at h
    exact h.eq_of_letter

/-- Words that are those of some items in another order are the words of these in that order. -/
theorem exists_of_words {byLetter : Bool} {words : List String} {items : List Item}
    (h : words.Perm (items.map (word byLetter))) :
    ∃ spoken : List Item, spoken.Perm items ∧ words = spoken.map (word byLetter) := by
  have hitems : List.Forall₂ (fun w item => w = word byLetter item) (items.map (word byLetter))
      items := by
    rw [List.forall₂_map_left_iff, List.forall₂_same]
    intro item _
    rfl
  obtain ⟨spoken, hspoken, hperm⟩ := List.perm_comp_forall₂ h hitems
  have hwords : List.Forall₂ Eq words (spoken.map (word byLetter)) :=
    List.forall₂_map_right_iff.mpr hspoken
  rw [List.forall₂_eq_eq_eq] at hwords
  exact ⟨spoken, hperm, hwords⟩

end Item

/-! ## Words in front of a line -/

theorem not_mentions_rom (rom : String) (a : Argument) : ¬ Mentions ["--", rom] a := by
  rintro ⟨w, hmem, -⟩
  simp at hmem

theorem not_mentions_words {byLetter : Bool} {items : List Item} {line : List String}
    {a : Argument} (hitems : ∀ item ∈ items, item.argument ≠ a) (hline : ¬ Mentions line a) :
    ¬ Mentions (items.map (Item.word byLetter) ++ line) a := by
  have hwords : ∀ w ∈ items.map (Item.word byLetter), (w != "--") = true := by
    intro w hmem
    obtain ⟨item, -, rfl⟩ := List.mem_map.mp hmem
    simpa using item.word_ne_dashes byLetter
  rintro ⟨w, hmem, hnames⟩
  rw [List.takeWhile_append_of_pos hwords] at hmem
  rcases List.mem_append.mp hmem with hfront | hbehind
  · obtain ⟨item, hitem, rfl⟩ := List.mem_map.mp hfront
    exact hitems item hitem (Item.argument_eq_of_names hnames)
  · exact hline ⟨w, hbehind, hnames⟩

namespace Rules

variable {ε : Type} {parse : List String → Except ε Options}

theorem parse_cons (rules : Rules parse) {item : Item} (byLetter : Bool) {line : List String}
    {o : Options} (h : parse line = .ok o) (hline : ¬ Mentions line item.argument) :
    parse (item.word byLetter :: line) = .ok (o.put item) := by
  rcases item.word_cases byLetter with ⟨setting, text, hreads, hword⟩ | ⟨rfl, hword | hword⟩
  · rw [hreads.argument_eq] at hline
    rw [hword]
    exact rules.attached setting text item line o hreads h hline
  · rw [hword]
    exact rules.raised line o h hline
  · rw [hword]
    exact rules.lettered 'f' line o rfl h hline

/-- The words in front of a line put their items into what it gives, the last one first. -/
theorem parse_words (rules : Rules parse) (byLetter : Bool) {items : List Item}
    (honce : (items.map Item.argument).Nodup) {line : List String} {o : Options}
    (h : parse line = .ok o) (hline : ∀ item ∈ items, ¬ Mentions line item.argument) :
    parse (items.map (Item.word byLetter) ++ line) =
      .ok (items.foldr (fun item o => o.put item) o) := by
  induction items with
  | nil => exact h
  | cons item items ih =>
    obtain ⟨hfirst, hbehind⟩ := List.forall_mem_cons.mp hline
    obtain ⟨hnew, hrest⟩ := List.nodup_cons.mp honce
    have hothers : ∀ other ∈ items, other.argument ≠ item.argument := by
      intro other hmem hsame
      exact hnew (hsame ▸ List.mem_map_of_mem hmem)
    exact rules.parse_cons byLetter (ih hrest hbehind) (not_mentions_words hothers hfirst)

end Rules

end CommandLine

/-! ## Options -/

namespace Options

variable {i j : Item}

theorem put_comm (o : Options) (hne : i.argument ≠ j.argument) :
    (o.put i).put j = (o.put j).put i := by
  cases i <;> cases j <;> first | rfl | exact absurd rfl hne

/-- What is put into options does not depend on the order, if no argument occurs twice. -/
theorem foldr_put_perm {is js : List Item} (h : is.Perm js) (honce : (is.map Item.argument).Nodup)
    (o : Options) :
    is.foldr (fun item o => o.put item) o = js.foldr (fun item o => o.put item) o := by
  refine h.foldr_eq' (fun i hi j hj o => ?_) o
  by_cases hij : i = j
  · rw [hij]
  · exact put_comm o fun hargument => hij (List.inj_on_of_nodup_map honce hi hj hargument)

/-- What a line spells out that gives these options, its file apart. The rate may be named or not;
keys are named only if there are any. -/
def items (o : Options) (rateNamed : Bool) : List Item :=
  (if rateNamed then [.hz o.hz] else []) ++ o.cycles.toList.map .cycles ++
    o.seed.toList.map .seed ++ (if o.keys = "" then [] else [.keys o.keys]) ++
    if o.fastForward then [.fastForward] else []

theorem nodup_argument_items (o : Options) (rateNamed : Bool) :
    ((o.items rateNamed).map Item.argument).Nodup := by
  have hsublist : ((o.items rateNamed).map Item.argument).Sublist
      ([.setting .hz] ++ [.setting .cycles] ++ [.setting .seed] ++ [.setting .keys] ++
        [.flag .fastForward]) := by
    simp only [items, List.map_append]
    refine .append (.append (.append (.append ?_ ?_) ?_) ?_) ?_
    · cases rateNamed <;> simp [Item.argument]
    · cases o.cycles <;> simp [Item.argument]
    · cases o.seed <;> simp [Item.argument]
    · by_cases hkeys : o.keys = "" <;> simp [Item.argument, hkeys]
    · cases o.fastForward <;> simp [Item.argument]
  exact hsublist.nodup (by decide)

/-- What was left out is what it is by default. -/
theorem foldr_put_items {o d : Options} {rateNamed : Bool} (hrate : rateNamed = true ∨ o.hz = 500)
    (hrom : d.rom = o.rom) (hdefault : ∀ a, d.HasDefault a) :
    (o.items rateNamed).foldr (fun item o => o.put item) d = o := by
  obtain ⟨rom, hz, cycles, seed, keys, fastForward⟩ := o
  obtain ⟨_, _, _, _, _, _⟩ := d
  obtain rfl : _ = rom := hrom
  obtain rfl : _ = 500 := hdefault (.setting .hz)
  obtain rfl : _ = none := hdefault (.setting .cycles)
  obtain rfl : _ = none := hdefault (.setting .seed)
  obtain rfl : _ = "" := hdefault (.setting .keys)
  obtain rfl : _ = false := hdefault (.flag .fastForward)
  have hnamed : ∀ o : Options, o.hz = 500 →
      (if rateNamed then [Item.hz hz] else []).foldr (fun item o => o.put item) o =
        { o with hz } := by
    rintro ⟨⟩ rfl
    rcases hrate with rfl | rfl
    · rfl
    · cases rateNamed <;> rfl
  have hheld : ∀ o : Options, o.keys = "" →
      (if keys = "" then [] else [Item.keys keys]).foldr (fun item o => o.put item) o =
        { o with keys } := by
    rintro ⟨⟩ rfl
    by_cases hkeys : keys = ""
    · rw [if_pos hkeys, hkeys]
      rfl
    · rw [if_neg hkeys]
      rfl
  simp only [items, List.foldr_append]
  -- Whether a value is there decides about its word, and not which value it is.
  rw [hheld]
  · rw [hnamed]
    · cases cycles <;> cases seed <;> cases fastForward <;> rfl
    · cases cycles <;> cases seed <;> cases fastForward <;> rfl
  · cases fastForward <;> rfl

/-- Options are read back from any line that spells them out, whatever the order of its words
is: the settings as names with numbers in decimal digits, or with the keys, the flag in one of its
spellings, and behind two dashes the program file. The rate may be left out if it is the usual
one. Keys and file names may hold any characters. -/
theorem parse_spelled_in_any_order {ε : Type} {parse : List String → Except ε Options}
    (rules : Rules parse) (o : Options) (hrom : o.rom ≠ "") {rateNamed byLetter : Bool}
    (hrate : rateNamed = true ∨ o.hz = 500) {words : List String}
    (hwords : words.Perm ((o.items rateNamed).map (Item.word byLetter))) :
    parse (words ++ ["--", o.rom]) = .ok o := by
  obtain ⟨spoken, hperm, rfl⟩ := Item.exists_of_words hwords
  have honce : (spoken.map Item.argument).Nodup :=
    (hperm.map Item.argument).nodup_iff.mpr (nodup_argument_items o rateNamed)
  obtain ⟨d, hd, hfile⟩ := rules.ended o.rom hrom
  have hdefault : ∀ a, d.HasDefault a := fun a => rules.absent _ d a hd (not_mentions_rom _ a)
  rw [rules.parse_words byLetter honce hd fun item _ => not_mentions_rom _ _,
    foldr_put_perm hperm honce, foldr_put_items hrate hfile hdefault]

/-- Keys and a file name that look like options, and the greatest numbers. -/
theorem read_spelled_dashes :
    let o : Options :=
      { rom := "--hz=1", hz := 18446744073709551615, cycles := some 0,
        seed := some 18446744073709551615, keys := "-f=q", fastForward := true }
    Rules Options.read ∧ o.rom ≠ "" ∧
      Options.read ["-f", "--keys=-f=q", "--seed=18446744073709551615", "--cycles=0",
        "--hz=18446744073709551615", "--", "--hz=1"] = .ok o := by
  intro o
  have hrom : o.rom ≠ "" := by decide
  have hwords : ["-f", "--keys=-f=q", "--seed=18446744073709551615", "--cycles=0",
      "--hz=18446744073709551615"].Perm ((o.items true).map (Item.word true)) := by
    decide +kernel
  exact ⟨rules_read, hrom, parse_spelled_in_any_order rules_read o hrom (.inl rfl) hwords⟩

end Options

end ChipEight
