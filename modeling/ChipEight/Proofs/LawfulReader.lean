import ChipEight.Proofs.Columns
import ChipEight.Proofs.CommandLineRules

/-! The reader of this library keeps the rules of a command line. A word that does not name an
argument is read in the same way whether this argument was accepted before it or not: the readings
meet the same fault, or go on with drafts that differ in this argument only. So what a word in
front of a line puts into the draft is still there behind the line, and what the line does not name
is never put there. -/

namespace ChipEight

open Numeral

namespace CommandLine

/-! ## Readings that agree -/

/-- Two readings come to the same fault, or to values that are related. -/
inductive Agree {α β : Type} (R : α → β → Prop) : Except UsageFault α → Except UsageFault β → Prop
  | ok {a : α} {b : β} (h : R a b) : Agree R (.ok a) (.ok b)
  | error (fault : UsageFault) : Agree R (.error fault) (.error fault)

theorem Agree.bind {α β γ δ : Type} {R : α → β → Prop} {S : γ → δ → Prop}
    {x : Except UsageFault α} {y : Except UsageFault β} {f : α → Except UsageFault γ}
    {g : β → Except UsageFault δ} (h : Agree R x y) (hnext : ∀ a b, R a b → Agree S (f a) (g b)) :
    Agree S (x >>= f) (y >>= g) := by
  cases h with
  | ok h => exact hnext _ _ h
  | error fault => exact .error fault

/-- A value that both have goes to the same place in both. -/
theorem Agree.map {α β γ : Type} {R : α → β → Prop} (x : Except UsageFault γ) {f : γ → α}
    {g : γ → β} (h : ∀ c, R (f c) (g c)) : Agree R (x.map f) (x.map g) := by
  cases x with
  | ok c => exact .ok (h c)
  | error fault => exact .error fault

/-- Both are refused, or neither is. -/
theorem Agree.unless {α β : Type} {R : α → β → Prop} (condition : Prop) [Decidable condition]
    (fault : UsageFault) {a : α} {b : β} (h : R a b) :
    Agree R (if condition then .error fault else .ok a)
      (if condition then .error fault else .ok b) := by
  by_cases hc : condition
  · rw [if_pos hc, if_pos hc]
    exact .error fault
  · rw [if_neg hc, if_neg hc]
    exact .ok h

theorem Agree.exists_ok {α β : Type} {R : α → β → Prop} {x : Except UsageFault α}
    {y : Except UsageFault β} {a : α} (h : Agree R x y) (hx : x = .ok a) :
    ∃ b, y = .ok b ∧ R a b := by
  cases h with
  | ok h =>
    cases hx
    exact ⟨_, rfl, h⟩
  | error => cases hx

/-! ## Drafts with and without an item -/

/-- The second options are the first, which have the default, with the item. -/
def Gains (item : Item) (o p : Options) : Prop := o.HasDefault item.argument ∧ p = o.put item

namespace Draft

/-- The draft has nothing yet where the argument puts its value. -/
def Lacks (d : Draft) : Argument → Prop
  | .setting .hz => d.hz = none
  | .setting .cycles => d.cycles = none
  | .setting .seed => d.seed = none
  | .setting .keys => d.keys = none
  | .flag .fastForward => d.fastForward = false
  | .flag .help | .flag .version => True

def put (d : Draft) : Item → Draft
  | .hz n => { d with hz := some n }
  | .cycles n => { d with cycles := some n }
  | .seed n => { d with seed := some n }
  | .keys text => { d with keys := some text }
  | .fastForward => { d with fastForward := true }

theorem lacks_empty (a : Argument) : empty.Lacks a := by
  rcases a with (_ | _ | _ | _) | (_ | _ | _) <;> first | rfl | trivial

/-- The second draft is the first, which lacks the item, with the item. -/
def Gains (item : Item) (d e : Draft) : Prop := d.Lacks item.argument ∧ e = d.put item

variable {item : Item} {d e : Draft}

theorem Gains.name_rom (h : d.Gains item e) (name : String) :
    { d with rom := some name }.Gains item { e with rom := some name } := by
  obtain ⟨hlacks, rfl⟩ := h
  cases item <;> exact ⟨hlacks, rfl⟩

theorem Gains.assign (h : d.Gains item e) {setting : Setting}
    (hne : Argument.setting setting ≠ item.argument) (text : String) :
    Agree (Gains item) (d.assign text setting) (e.assign text setting) := by
  obtain ⟨hlacks, rfl⟩ := h
  cases setting with
  | hz | cycles | seed =>
    cases item <;> first
      | exact absurd rfl hne
      | exact Agree.map _ fun n => ⟨hlacks, rfl⟩
  | keys =>
    cases item with
    | keys => exact absurd rfl hne
    | _ => exact Agree.unless _ _ ⟨hlacks, rfl⟩

theorem Gains.raise (h : d.Gains item e) {flag : Flag} (hne : Argument.flag flag ≠ item.argument) :
    Agree (Gains item) (d.raise flag) (e.raise flag) := by
  obtain ⟨hlacks, rfl⟩ := h
  cases flag with
  | help | version => exact .error _
  | fastForward =>
    cases item with
    | fastForward => exact absurd rfl hne
    | _ => exact Agree.unless _ _ ⟨hlacks, rfl⟩

theorem Gains.options (h : d.Gains item e) :
    Agree (CommandLine.Gains item) d.options e.options := by
  obtain ⟨hlacks, rfl⟩ := h
  obtain ⟨rom, hz, cycles, seed, keys, fastForward⟩ := d
  cases rom with
  | none => cases item <;> exact .error _
  | some rom =>
    cases item with
    | hz n =>
      obtain rfl : hz = none := hlacks
      exact .ok ⟨rfl, rfl⟩
    | keys text =>
      obtain rfl : keys = none := hlacks
      exact .ok ⟨rfl, rfl⟩
    | cycles n | seed n | fastForward => exact .ok ⟨hlacks, rfl⟩

end Draft

/-! ## Words with and without an item -/

theorem name_of_long? {name : String} {a : Argument} (h : long? name = some a) : a.name = name := by
  simpa using List.find?_some h

theorem letter?_of_short? {c : Char} {a : Argument} (h : short? c = some a) :
    a.letter? = some c := by
  simpa using List.find?_some h

/-- Where a name is found behind two dashes, the word names that argument. -/
theorem names_of_long? {w : List Char} {a : Argument}
    (h : long? (String.ofList (w.takeWhile (· != '='))) = some a) :
    Names a (String.ofList ('-' :: '-' :: w)) := by
  have hname := name_of_long? h
  have hsplit : w.takeWhile (· != '=') ++ w.dropWhile (· != '=') = w :=
    List.takeWhile_append_dropWhile
  have hequals := List.head?_dropWhile_not (· != '=') w
  cases hrest : w.dropWhile (· != '=') with
  | nil =>
    have hword : String.ofList ('-' :: '-' :: w) = "--" ++ a.name := by
      rw [← String.toList_inj, hname]
      simpa [hrest] using hsplit.symm
    rw [hword]
    exact .alone
  | cons c text =>
    rw [hrest, List.head?_cons] at hequals
    obtain rfl : c = '=' := by simpa using hequals
    have hword : String.ofList ('-' :: '-' :: w) =
        "--" ++ a.name ++ "=" ++ String.ofList text := by
      rw [← String.toList_inj, hname]
      simpa [hrest] using hsplit.symm
    rw [hword]
    exact .attached _

theorem Shape.eq_of_ofWord_long {w : String} {name : List Char} (h : ofWord w = .long name) :
    w = String.ofList ('-' :: '-' :: name) := by
  unfold ofWord at h
  split at h
  · rename_i hw
    cases h
    rw [← hw, String.ofList_toList]
  · cases h
  · cases h

theorem Shape.eq_of_ofWord_short {w : String} {letters : List Char}
    (h : ofWord w = .short letters) :
    w = String.ofList ('-' :: letters) ∧ letters.head? ≠ some '-' := by
  unfold ofWord at h
  split at h
  · cases h
  · rename_i hne hw
    cases h
    refine ⟨by rw [← hw, String.ofList_toList], fun hhead => ?_⟩
    exact hne (Option.some.inj hhead)
  · cases h

namespace Reader

/-- The second reader is the first, whose draft lacks the item, with the item. The same waits in
both, and it is not this argument. -/
structure Gains (item : Item) (r t : Reader) : Prop where
  draft : r.draft.Gains item t.draft
  pending : t.pending = r.pending
  waits : ∀ setting value, r.pending = .setting setting value →
    Argument.setting setting ≠ item.argument

variable {item : Item} {r t : Reader}

theorem Gains.settle (h : r.Gains item t) :
    Agree (Draft.Gains item) r.settle t.settle := by
  obtain ⟨d, pending⟩ := r
  obtain ⟨e, _⟩ := t
  obtain ⟨hdraft, hpending, hwaits⟩ := h
  cases hpending
  cases pending with
  | nothing => exact .ok hdraft
  | rom name => exact Agree.unless _ _ (hdraft.name_rom name)
  | setting setting value =>
    cases value with
    | none => exact .error _
    | some text => exact hdraft.assign (hwaits _ _ rfl) text

theorem Gains.hasRom_eq (h : r.Gains item t) : t.hasRom = r.hasRom := by
  have hrom : t.draft.rom = r.draft.rom := by
    rw [h.draft.2]
    cases item <;> rfl
  simp only [hasRom, h.pending, hrom]

theorem Gains.accept (h : r.Gains item t) {change : Draft → Except UsageFault Draft}
    (hchange : ∀ d e, d.Gains item e → Agree (Draft.Gains item) (change d) (change e)) :
    Agree (Gains item) (r.accept change) (t.accept change) := by
  refine h.settle.bind fun d e hsettled => ?_
  refine (hchange d e hsettled).bind fun d e hchanged => ?_
  exact .ok ⟨hchanged, rfl, nofun⟩

theorem Gains.await (h : r.Gains item t) {pending : Pending}
    (hwaits : ∀ setting value, pending = .setting setting value →
      Argument.setting setting ≠ item.argument) :
    Agree (Gains item) (r.await pending) (t.await pending) := by
  refine h.settle.bind fun d e hsettled => ?_
  exact .ok ⟨hsettled, rfl, hwaits⟩

theorem Gains.operand (h : r.Gains item t) (w : String) :
    Agree (Gains item) (r.operand w) (t.operand w) := by
  unfold Reader.operand
  rw [h.hasRom_eq]
  by_cases hrom : r.hasRom = true
  · rw [if_pos hrom, if_pos hrom]
    exact .error _
  · rw [if_neg hrom, if_neg hrom]
    exact h.await nofun

theorem Gains.plain (h : r.Gains item t) (w : String) :
    Agree (Gains item) (r.plain w) (t.plain w) := by
  unfold Reader.plain
  rw [h.pending]
  cases hpending : r.pending with
  | nothing | rom => exact h.operand w
  | setting setting value =>
    cases value with
    | some text => exact h.operand w
    | none =>
      refine .ok ⟨h.draft, rfl, fun other value heq => ?_⟩
      cases heq
      exact h.waits _ _ hpending

theorem Gains.long (h : r.Gains item t) {w : List Char}
    (hnames : ¬ Names item.argument (String.ofList ('-' :: '-' :: w))) :
    Agree (Gains item) (r.long w) (t.long w) := by
  unfold Reader.long
  dsimp only
  cases hlong : long? (String.ofList (w.takeWhile (· != '='))) with
  | none => exact .error _
  | some a =>
    have hne : a ≠ item.argument := by
      rintro rfl
      exact hnames (names_of_long? hlong)
    cases a with
    | setting setting =>
      cases w.dropWhile (· != '=') with
      | nil =>
        refine h.await fun other value heq => ?_
        cases heq
        exact hne
      | cons _ text => exact h.accept fun d e hgains => hgains.assign hne _
    | flag flag =>
      cases w.dropWhile (· != '=') with
      | nil => exact h.accept fun d e hgains => hgains.raise hne
      | cons => exact .error _

theorem Gains.short (h : r.Gains item t) {letters : List Char}
    (hletters : ∀ c ∈ letters, item.argument.letter? ≠ some c) :
    Agree (Gains item) (r.short letters) (t.short letters) := by
  induction letters generalizing r t with
  | nil => exact .ok h
  | cons c rest ih =>
    obtain ⟨hfirst, hrest⟩ := List.forall_mem_cons.mp hletters
    rw [Reader.short, Reader.short]
    cases hshort : short? c with
    | none => exact .error _
    | some a =>
      have hne : a ≠ item.argument := by
        rintro rfl
        exact hfirst (letter?_of_short? hshort)
      cases a with
      | flag flag =>
        exact (h.accept fun d e hgains => hgains.raise hne).bind fun _ _ hraised => ih hraised hrest
      | setting setting =>
        cases rest with
        | nil =>
          refine h.await fun other value heq => ?_
          cases heq
          exact hne
        | cons => exact h.accept fun d e hgains => hgains.assign hne _

theorem Gains.word (h : r.Gains item t) {w : String} (hnames : ¬ Names item.argument w) :
    Agree (Gains item) (r.word w) (t.word w) := by
  unfold Reader.word
  cases hshape : Shape.ofWord w with
  | long name =>
    rw [Shape.eq_of_ofWord_long hshape] at hnames
    exact h.long hnames
  | short letters =>
    obtain ⟨hw, hhead⟩ := Shape.eq_of_ofWord_short hshape
    rw [hw] at hnames
    exact h.short fun c hmem hletter => hnames (.letter hletter hmem hhead)
  | plain => exact h.plain w

theorem Gains.operands (h : r.Gains item t) (ws : List String) :
    Agree (Gains item) (ws.foldlM Reader.operand r) (ws.foldlM Reader.operand t) := by
  induction ws generalizing r t with
  | nil => exact .ok h
  | cons w ws ih => exact (h.operand w).bind fun _ _ hnext => ih hnext

theorem Gains.words (h : r.Gains item t) {line : List String}
    (hline : ¬ Mentions line item.argument) :
    Agree (Gains item) (r.words line) (t.words line) := by
  induction line generalizing r t with
  | nil => exact .ok h
  | cons w ws ih =>
    rw [Reader.words, Reader.words]
    by_cases hw : w = "--"
    · rw [if_pos hw, if_pos hw]
      exact h.operands ws
    · rw [if_neg hw, if_neg hw]
      have htake : (w :: ws).takeWhile (· != "--") = w :: ws.takeWhile (· != "--") :=
        List.takeWhile_cons_of_pos (by simpa using hw)
      rw [Mentions, htake] at hline
      have hfirst : ¬ Names item.argument w := fun hnames => hline ⟨w, .head _, hnames⟩
      refine (h.word hfirst).bind fun _ _ hnext => ih hnext ?_
      rintro ⟨other, hmem, hnames⟩
      exact hline ⟨other, .tail _ hmem, hnames⟩

theorem Gains.read (h : r.Gains item t) {line : List String}
    (hline : ¬ Mentions line item.argument) :
    Agree (CommandLine.Gains item) (r.read line) (t.read line) := by
  refine (h.words hline).bind fun _ _ hwords => ?_
  exact hwords.settle.bind fun _ _ hsettled => hsettled.options

end Reader

/-! ## The reader keeps the rules -/

theorem long?_name (a : Argument) : long? a.name = some a := by
  rcases a with (_ | _ | _ | _) | (_ | _ | _) <;> rfl

theorem short?_letter {a : Argument} {c : Char} (h : a.letter? = some c) : short? c = some a := by
  rcases a with (_ | _ | _ | _) | (_ | _ | _) <;> cases h <;> rfl

theorem exists_item_or :
    ∀ a : Argument, (∃ item : Item, item.argument = a) ∨ a = .flag .help ∨ a = .flag .version
  | .setting .hz => .inl ⟨.hz 0, rfl⟩
  | .setting .cycles => .inl ⟨.cycles 0, rfl⟩
  | .setting .seed => .inl ⟨.seed 0, rfl⟩
  | .setting .keys => .inl ⟨.keys "", rfl⟩
  | .flag .fastForward => .inl ⟨.fastForward, rfl⟩
  | .flag .help => .inr (.inl rfl)
  | .flag .version => .inr (.inr rfl)

theorem letter?_ne_dash (a : Argument) : a.letter? ≠ some '-' := by
  rcases a with (_ | _ | _ | _) | (_ | _ | _) <;> decide

theorem ne_equals_of_mem_name (a : Argument) : ∀ c ∈ a.name.toList, (c != '=') = true := by
  have hall : a.name.toList.all (· != '=') = true := by
    rcases a with (_ | _ | _ | _) | (_ | _ | _) <;> rfl
  exact List.all_eq_true.mp hall

/-- What stands behind a name, if anything, begins with an equals sign, and there it is cut. -/
theorem split_name (a : Argument) {rest : List Char} (h : ∀ c ∈ rest.head?, c = '=') :
    (a.name.toList ++ rest).takeWhile (· != '=') = a.name.toList ∧
      (a.name.toList ++ rest).dropWhile (· != '=') = rest := by
  refine takeWhile_dropWhile_append (ne_equals_of_mem_name a) fun c hc => ?_
  rw [h c hc]
  rfl

/-- A plus sign is no digit, so none is dropped from digits. -/
theorem number?_eq_some {text : String} {n : UInt64} (h : read? 10 text.toList = some n.toNat) :
    number? text = some n := by
  have hplus : ∀ rest, text.toList ≠ '+' :: rest := by
    intro rest htext
    rw [htext] at h
    simp [read?, digitOf?] at h
  simp only [number?]
  split
  · rename_i m hread
    obtain rfl : n.toNat = m := Option.some.inj (h.symm.trans hread)
    rw [if_pos n.toNat_lt, UInt64.ofNat_toNat]
  · rename_i hread
    cases h.symm.trans hread

theorem takeNumber_none {text : String} {n : UInt64} (h : read? 10 text.toList = some n.toNat) :
    takeNumber none text = .ok n := by
  simp only [takeNumber, number?_eq_some h]

theorem Setting.Reads.assign_empty {setting : Setting} {text : String} {item : Item}
    (h : setting.Reads text item) :
    Draft.empty.assign text setting = .ok (Draft.empty.put item) := by
  cases h with
  | hz h | cycles h | seed h =>
    rw [Draft.assign]
    simp only [Draft.empty, takeNumber_none h]
    rfl
  | keys => rfl

namespace Reader

/-- With nothing left to check, a change is made to the draft at once. -/
theorem accept_start (change : Draft → Except UsageFault Draft) :
    start.accept change = (change .empty).map (Reader.mk · .nothing) := by
  simp only [accept, start, settle, bind, Except.bind]
  cases change .empty <;> rfl

theorem word_of_long {name : List Char} {w : String} (h : w.toList = '-' :: '-' :: name)
    (r : Reader) : r.word w = r.long name := by
  rw [word, Shape.ofWord, h]
  rfl

theorem word_attached (setting : Setting) (text : String) :
    start.word ("--" ++ (Argument.setting setting).name ++ "=" ++ text) =
      (Draft.empty.assign text setting).map (Reader.mk · .nothing) := by
  have hword : ("--" ++ (Argument.setting setting).name ++ "=" ++ text).toList =
      '-' :: '-' :: ((Argument.setting setting).name.toList ++ '=' :: text.toList) := by simp
  have hequals : ∀ c ∈ ('=' :: text.toList).head?, c = '=' := by simp
  obtain ⟨hname, htext⟩ := split_name (.setting setting) hequals
  rw [word_of_long hword, long]
  simp only [hname, htext, String.ofList_toList, long?_name, accept_start]

theorem word_raised (flag : Flag) :
    start.word ("--" ++ (Argument.flag flag).name) =
      (Draft.empty.raise flag).map (Reader.mk · .nothing) := by
  have hword : ("--" ++ (Argument.flag flag).name).toList =
      '-' :: '-' :: ((Argument.flag flag).name.toList ++ []) := by simp
  have hnothing : ∀ c ∈ ([] : List Char).head?, c = '=' := nofun
  obtain ⟨hname, htext⟩ := split_name (.flag flag) hnothing
  rw [word_of_long hword, long]
  simp only [hname, htext, String.ofList_toList, long?_name, accept_start]

theorem word_lettered {flag : Flag} {c : Char} (h : (Argument.flag flag).letter? = some c) :
    start.word (String.ofList ['-', c]) =
      (Draft.empty.raise flag).map (Reader.mk · .nothing) := by
  have hc : c ≠ '-' := by
    rintro rfl
    exact letter?_ne_dash _ h
  -- That the letter is no dash is what makes the word a short one.
  have hshape : Shape.ofWord (String.ofList ['-', c]) = .short [c] := by
    simp [Shape.ofWord]
  rw [word, hshape]
  simp only [short, short?_letter h, accept_start]
  cases Draft.empty.raise flag <;> rfl

/-- Behind two dashes a word waits as the program file, whatever it looks like. -/
theorem read_rom {rom : String} (h : rom ≠ "") :
    ∃ o, start.read ["--", rom] = .ok o ∧ o.rom = rom := by
  have hwords : start.words ["--", rom] = .ok ⟨.empty, .rom rom⟩ := by
    simp [words, operand, hasRom, await, settle, start, Draft.empty, bind, Except.bind, pure,
      Except.pure]
  simp only [read, hwords, bind, Except.bind, settle, if_neg h]
  exact ⟨_, rfl, rfl⟩

theorem gains_start (item : Item) : start.Gains item ⟨Draft.empty.put item, .nothing⟩ :=
  ⟨⟨Draft.lacks_empty _, rfl⟩, rfl, nofun⟩

/-- A word whose item is accepted at once adds it to what the line gives without the word. -/
theorem read_cons {w : String} {item : Item} {line : List String} {o : Options} (hw : w ≠ "--")
    (hword : start.word w = .ok ⟨Draft.empty.put item, .nothing⟩) (h : start.read line = .ok o)
    (hline : ¬ Mentions line item.argument) : start.read (w :: line) = .ok (o.put item) := by
  obtain ⟨p, hp, -, rfl⟩ := ((gains_start item).read hline).exists_ok h
  rw [← hp, Reader.read, words, if_neg hw, hword]
  rfl

end Reader

end CommandLine

open CommandLine

/-- The reader of this library keeps the rules. -/
theorem Options.rules_read : Rules Options.read where
  ended rom hrom := Reader.read_rom hrom
  absent line o a h hline := by
    rcases exists_item_or a with ⟨item, rfl⟩ | rfl | rfl
    · obtain ⟨-, -, hdefault, -⟩ := ((Reader.gains_start item).read hline).exists_ok h
      exact hdefault
    · trivial
    · trivial
  attached setting text item line o hreads h hline := by
    have hword := Reader.word_attached setting text
    rw [hreads.assign_empty] at hword
    have hdashes : "--" ++ (Argument.setting setting).name ++ "=" ++ text ≠ "--" := by
      intro heq
      simpa using congrArg String.toList heq
    exact Reader.read_cons hdashes hword h (hreads.argument_eq ▸ hline)
  raised line o h hline := by
    have hword : Reader.start.word "--fast-forward" =
        .ok ⟨Draft.empty.put .fastForward, .nothing⟩ := Reader.word_raised .fastForward
    exact Reader.read_cons (by decide) hword h hline
  lettered c line o hletter h hline := by
    have hword : Reader.start.word (String.ofList ['-', c]) =
        .ok ⟨Draft.empty.put .fastForward, .nothing⟩ := Reader.word_lettered hletter
    obtain rfl : 'f' = c := Option.some.inj hletter
    exact Reader.read_cons (by decide) hword h hline

end ChipEight
