import BobUI.Corelib.Text.StringIterator
import Mathlib.Data.List.Induction

/-!
# The rules for joiners

`DomainValidityChecker::checkContextJRules` of `qurlidna.cpp`, an automaton that reads a label
once, and the rule sets of its comment, which look around each joiner.  The automaton forgets a
ZWNJ that waits for what follows it when it reads a character that joins on no side.
-/

namespace QUrlIdna

/-- `QChar::JoiningType`. -/
inductive JoiningType where
  | Joining_None
  | Joining_Causing
  | Joining_Dual
  | Joining_Right
  | Joining_Left
  | Joining_Transparent
deriving DecidableEq, Repr

def CombiningClassVirama : ℕ := 9

def ZWNJ : ℕ := 0x200c

def ZWJ : ℕ := 0x200d

/-- The properties of characters that the rules use, which `qunicodetables.cpp` lists. -/
structure CharacterData where
  joiningType : ℕ → JoiningType
  combiningClass : ℕ → ℕ
  joiningType_zwnj : joiningType ZWNJ = .Joining_None
  joiningType_zwj : joiningType ZWJ = .Joining_Causing

/-- `QChar::ReplacementCharacter`. -/
def replacementCharacter : ℕ := 0xfffd

/-! ### The automaton -/

inductive RegexpState where
  | Initial
  | LD_T
  | ZWNJ_T
deriving DecidableEq, Repr

/-- The variables of the loop of `checkContextJRules`. -/
structure JoinerScan where
  regexpState : RegexpState
  previousIsVirama : Bool
deriving DecidableEq, Repr

section Scan

variable (x : CharacterData)

/-- The state of the regular expression after a character; `none` is `return false`. -/
def nextRegexpState (s : JoinerScan) (ch : ℕ) : Option RegexpState :=
  if ch = ZWJ then
    if !s.previousIsVirama then none
    else some .Initial
  else if ch = ZWNJ then
    if !s.previousIsVirama && s.regexpState ≠ .LD_T then none
    else some (if s.previousIsVirama then .Initial else .ZWNJ_T)
  else
    match x.joiningType ch with
    | .Joining_Left => if s.regexpState = .ZWNJ_T then none else some .LD_T
    | .Joining_Right => some .Initial
    | .Joining_Dual => some .LD_T
    | .Joining_Transparent => some s.regexpState
    | _ => some .Initial

/-- The body of the loop. -/
def scanCharacter (s : JoinerScan) (ch : ℕ) : Option JoinerScan :=
  (nextRegexpState x s ch).map fun regexpState =>
    { regexpState := regexpState
      previousIsVirama := x.combiningClass ch = CombiningClassVirama }

/-- The loop. -/
def scanCharacters (characters : List ℕ) : Option JoinerScan :=
  characters.foldlM (scanCharacter x) ⟨.Initial, false⟩

def checkContextJRules (label : QString) : Bool :=
  match scanCharacters x (QStringIterator.codePoints replacementCharacter label) with
  | none => false
  | some s => s.regexpState ≠ .ZWNJ_T

/-! ### The rule sets -/

/-- `Canonical_Combining_Class(Before(cp)) .eq. Virama`. -/
def AfterVirama (before : List ℕ) : Prop :=
  ∃ text ch, before = text ++ [ch] ∧ x.combiningClass ch = CombiningClassVirama

def Transparent (text : List ℕ) : Prop :=
  ∀ ch ∈ text, x.joiningType ch = .Joining_Transparent

/-- A character with `p`, given the text in front of it, and then only characters of type T. -/
def EndsWith (p : List ℕ → ℕ → Prop) (before : List ℕ) : Prop :=
  ∃ text ch rest, before = text ++ ch :: rest ∧ Transparent x rest ∧ p text ch

/-- Characters of type T only, and then a character that has another type with `p`. -/
def BeginsWith (p : JoiningType → Prop) (after : List ℕ) : Prop :=
  ∃ rest ch text, after = rest ++ ch :: text ∧ Transparent x rest ∧
    x.joiningType ch ≠ .Joining_Transparent ∧ p (x.joiningType ch)

/-- `(Joining_Type:{L,D})(Joining_Type:T)*` in front of a joiner. -/
def JoinsBefore (before : List ℕ) : Prop :=
  EndsWith x (fun _ ch => x.joiningType ch = .Joining_Left ∨ x.joiningType ch = .Joining_Dual)
    before

/-- `(Joining_Type:T)*(Joining_Type:{R,D})` after a joiner. -/
def JoinsAfter (after : List ℕ) : Prop :=
  BeginsWith x (fun type => type = .Joining_Right ∨ type = .Joining_Dual) after

/-- The rule sets for ZWJ and ZWNJ at all places of a text. -/
structure ContextRules (characters : List ℕ) : Prop where
  zwj : ∀ before after, characters = before ++ ZWJ :: after → AfterVirama x before
  zwnj : ∀ before after, characters = before ++ ZWNJ :: after →
    AfterVirama x before ∨ JoinsBefore x before ∧ JoinsAfter x after

/-! ### What the automaton knows -/

/-- A ZWNJ without a virama, and then only characters of type T. -/
def Waits (before : List ℕ) : Prop :=
  EndsWith x (fun text ch => ch = ZWNJ ∧ ¬ AfterVirama x text) before

/-- A character that the automaton refuses, given the text in front of it. -/
def Fault (before : List ℕ) (ch : ℕ) : Prop :=
  ch = ZWJ ∧ ¬ AfterVirama x before
    ∨ ch = ZWNJ ∧ ¬ AfterVirama x before ∧ ¬ JoinsBefore x before
    ∨ x.joiningType ch = .Joining_Left ∧ Waits x before

/-- What the variables of the loop say of the text that has been read. -/
structure Scanned (before : List ℕ) (s : JoinerScan) : Prop where
  virama : s.previousIsVirama = true ↔ AfterVirama x before
  joins : s.regexpState = .LD_T ↔ JoinsBefore x before
  waits : s.regexpState = .ZWNJ_T ↔ Waits x before

variable {x} {before : List ℕ} {ch : ℕ} {s : JoinerScan}

theorem append_singleton_eq {before text rest : List ℕ} {ch c : ℕ} :
  before ++ [c] = text ++ ch :: rest ↔
    rest = [] ∧ before = text ∧ c = ch ∨ ∃ rest', rest = rest' ++ [c] ∧ before = text ++ ch :: rest'
  := by
  induction rest using List.reverseRecOn with
  | nil =>
    constructor
    · intro h
      obtain ⟨htext, hch⟩ := List.append_inj' h rfl
      rw [List.cons.injEq] at hch
      exact Or.inl ⟨rfl, htext, hch.1⟩
    · rintro (⟨-, rfl, rfl⟩ | ⟨rest', hnil, -⟩)
      · rfl
      · simp at hnil
  | append_singleton rest d ih =>
    constructor
    · intro h
      rw [← List.cons_append, ← List.append_assoc] at h
      obtain ⟨htext, hd⟩ := List.append_inj' h rfl
      rw [List.cons.injEq] at hd
      right
      use rest
      rw [hd.1]
      exact ⟨rfl, htext⟩
    · rintro (⟨hnil, -, -⟩ | ⟨rest', hrest, rfl⟩)
      · simp at hnil
      · rw [hrest]
        simp

theorem afterVirama_append :
  AfterVirama x (before ++ [ch]) ↔ x.combiningClass ch = CombiningClassVirama
  := by
  constructor
  · rintro ⟨text, c, heq, hc⟩
    obtain ⟨-, hch⟩ := List.append_inj' heq rfl
    rw [List.cons.injEq] at hch
    rw [hch.1]
    apply hc
  · intro h
    use before, ch

theorem endsWith_append {p : List ℕ → ℕ → Prop} :
  EndsWith x p (before ++ [ch]) ↔
    p before ch ∨ x.joiningType ch = .Joining_Transparent ∧ EndsWith x p before
  := by
  constructor
  · rintro ⟨text, c, rest, heq, hrest, hp⟩
    rcases append_singleton_eq.mp heq with ⟨-, rfl, rfl⟩ | ⟨rest', rfl, rfl⟩
    · exact Or.inl hp
    · right
      constructor
      · apply hrest
        simp
      · use text, c, rest', rfl
        constructor
        · intro d hd
          apply hrest
          apply List.mem_append_left _ hd
        · apply hp
  · rintro (hp | ⟨hch, text, c, rest, rfl, hrest, hp⟩)
    · use before, ch, [], rfl
      constructor
      · intro d hd
        cases hd
      · apply hp
    · use text, c, rest ++ [ch]
      constructor
      · simp
      · constructor
        · intro d hd
          rcases List.mem_append.mp hd with hd | hd
          · apply hrest d hd
          · rw [List.mem_singleton.mp hd]
            apply hch
        · apply hp

theorem not_endsWith_nil {p : List ℕ → ℕ → Prop} :
  ¬ EndsWith x p []
  := by
  rintro ⟨text, c, rest, heq, -⟩
  simp at heq

theorem joinsBefore_append :
  JoinsBefore x (before ++ [ch]) ↔
    (x.joiningType ch = .Joining_Left ∨ x.joiningType ch = .Joining_Dual)
      ∨ x.joiningType ch = .Joining_Transparent ∧ JoinsBefore x before
  := endsWith_append

theorem waits_append :
  Waits x (before ++ [ch]) ↔
    (ch = ZWNJ ∧ ¬ AfterVirama x before)
      ∨ x.joiningType ch = .Joining_Transparent ∧ Waits x before
  := endsWith_append

/-- The automaton refuses a character exactly when it is a fault. -/
theorem nextRegexpState_none (h : Scanned x before s) :
  nextRegexpState x s ch = none ↔ Fault x before ch
  := by
  have hne : ZWJ ≠ ZWNJ := by decide
  rw [nextRegexpState, Fault, ← h.virama, ← h.joins, ← h.waits]
  by_cases hzwj : ch = ZWJ
  · rw [if_pos hzwj, hzwj, x.joiningType_zwj]
    simp [hne]
  · rw [if_neg hzwj]
    by_cases hzwnj : ch = ZWNJ
    · rw [if_pos hzwnj, hzwnj, x.joiningType_zwnj]
      simp [hne.symm]
    · rw [if_neg hzwnj]
      cases htype : x.joiningType ch with
      | Joining_Left => simp [hzwj, hzwnj]
      | Joining_None => simp [hzwj, hzwnj]
      | Joining_Causing => simp [hzwj, hzwnj]
      | Joining_Dual => simp [hzwj, hzwnj]
      | Joining_Right => simp [hzwj, hzwnj]
      | Joining_Transparent => simp [hzwj, hzwnj]

/-- What the automaton knows after a character that it does not refuse. -/
theorem nextRegexpState_some (h : Scanned x before s) {r : RegexpState}
    (hr : nextRegexpState x s ch = some r) :
  (r = .LD_T ↔ JoinsBefore x (before ++ [ch])) ∧ (r = .ZWNJ_T ↔ Waits x (before ++ [ch]))
  := by
  have hne : ZWJ ≠ ZWNJ := by decide
  rw [joinsBefore_append, waits_append, ← h.virama, ← h.joins, ← h.waits]
  rw [nextRegexpState] at hr
  by_cases hzwj : ch = ZWJ
  · rw [if_pos hzwj] at hr
    rw [hzwj, x.joiningType_zwj]
    split at hr
    · cases hr
    · cases hr
      simp [hne]
  · rw [if_neg hzwj] at hr
    by_cases hzwnj : ch = ZWNJ
    · rw [if_pos hzwnj] at hr
      rw [hzwnj, x.joiningType_zwnj]
      split at hr
      · cases hr
      · cases hr
        cases s.previousIsVirama with
        | true => simp
        | false => simp
    · rw [if_neg hzwnj] at hr
      cases htype : x.joiningType ch with
      | Joining_Left =>
        rw [htype] at hr
        dsimp only at hr
        split at hr
        · cases hr
        · cases hr
          simp [hzwnj]
      | Joining_None =>
        rw [htype] at hr
        cases hr
        simp [hzwnj]
      | Joining_Causing =>
        rw [htype] at hr
        cases hr
        simp [hzwnj]
      | Joining_Dual =>
        rw [htype] at hr
        cases hr
        simp [hzwnj]
      | Joining_Right =>
        rw [htype] at hr
        cases hr
        simp [hzwnj]
      | Joining_Transparent =>
        rw [htype] at hr
        cases hr
        simp [hzwnj]

/-- A character keeps what the variables say of the text. -/
theorem Scanned.step (h : Scanned x before s) {s' : JoinerScan}
    (hstep : scanCharacter x s ch = some s') :
  Scanned x (before ++ [ch]) s'
  := by
  rw [scanCharacter, Option.map_eq_some_iff] at hstep
  obtain ⟨r, hr, rfl⟩ := hstep
  constructor
  · rw [afterVirama_append, decide_eq_true_iff]
  · apply (nextRegexpState_some h hr).1
  · apply (nextRegexpState_some h hr).2

theorem Scanned.nil :
  Scanned x [] ⟨.Initial, false⟩
  := by
  constructor
  · constructor
    · apply Bool.noConfusion
    · rintro ⟨text, c, heq, -⟩
      simp at heq
  · exact ⟨RegexpState.noConfusion, fun h => absurd h not_endsWith_nil⟩
  · exact ⟨RegexpState.noConfusion, fun h => absurd h not_endsWith_nil⟩

variable (x) in
/-- A text with a fault somewhere. -/
def HasFault (characters : List ℕ) : Prop :=
  ∃ before ch after, characters = before ++ ch :: after ∧ Fault x before ch

theorem hasFault_append :
  HasFault x (before ++ [ch]) ↔ HasFault x before ∨ Fault x before ch
  := by
  constructor
  · rintro ⟨text, c, rest, heq, hfault⟩
    rcases append_singleton_eq.mp heq with ⟨-, rfl, rfl⟩ | ⟨rest', -, rfl⟩
    · exact Or.inr hfault
    · left
      use text, c, rest'
  · rintro (⟨text, c, rest, rfl, hfault⟩ | hfault)
    · use text, c, rest ++ [ch]
      simp [hfault]
    · use before, ch, []

theorem scanCharacters_append :
  scanCharacters x (before ++ [ch]) = (scanCharacters x before).bind (scanCharacter x · ch)
  := by
  rw [scanCharacters, List.foldlM_append]
  cases h : before.foldlM (scanCharacter x) ⟨.Initial, false⟩ with
  | none => simp [scanCharacters, h]
  | some s => simp [scanCharacters, h]

/-- The loop ends without `return false` exactly for texts without a fault. -/
theorem scanCharacters_spec (characters : List ℕ) :
  (scanCharacters x characters = none ↔ HasFault x characters)
    ∧ ∀ s, scanCharacters x characters = some s → Scanned x characters s
  := by
  induction characters using List.reverseRecOn with
  | nil =>
    constructor
    · constructor
      · intro h
        cases h
      · rintro ⟨text, c, rest, heq, -⟩
        simp at heq
    · intro s h
      cases h
      apply Scanned.nil
  | append_singleton before ch ih =>
    rw [scanCharacters_append, hasFault_append]
    cases hscan : scanCharacters x before with
    | none =>
      constructor
      · exact ⟨fun _ => Or.inl (ih.1.mp hscan), fun _ => rfl⟩
      · intro s hs
        cases hs
    | some s =>
      have hscanned := ih.2 s hscan
      have hfault : ¬ HasFault x before := by
        rw [← ih.1, hscan]
        apply Option.some_ne_none
      rw [Option.bind_some, scanCharacter]
      constructor
      · rw [Option.map_eq_none_iff, nextRegexpState_none hscanned]
        exact ⟨Or.inr, fun h => h.resolve_left hfault⟩
      · intro s' hstep
        apply hscanned.step hstep

/-- The automaton accepts the texts that have no fault and do not end while a ZWNJ waits. -/
theorem checkContextJRules_iff (label : QString) :
  checkContextJRules x label = true ↔
    ¬ HasFault x (QStringIterator.codePoints replacementCharacter label)
      ∧ ¬ Waits x (QStringIterator.codePoints replacementCharacter label)
  := by
  obtain ⟨hnone, hsome⟩ :=
    scanCharacters_spec (x := x) (QStringIterator.codePoints replacementCharacter label)
  rw [checkContextJRules]
  cases hscan : scanCharacters x (QStringIterator.codePoints replacementCharacter label) with
  | none =>
    constructor
    · apply Bool.noConfusion
    · rintro ⟨hfault, -⟩
      exact absurd (hnone.mp hscan) hfault
  | some s =>
    rw [← hnone, hscan, ← (hsome s hscan).waits, decide_eq_true_iff]
    exact ⟨fun h => ⟨Option.some_ne_none s, h⟩, And.right⟩

/-! ### The rules and the automaton -/

variable (x) in
/-- Labels that the automaton refuses, and the rules as well: a ZWJ without a virama, or a ZWNJ
without one that is not joined in front, or after which the next character that is not of type T
is of type L, or is missing. -/
def Refused (characters : List ℕ) : Prop :=
  (∃ before after, characters = before ++ ZWJ :: after ∧ ¬ AfterVirama x before)
    ∨ ∃ before after, characters = before ++ ZWNJ :: after ∧ ¬ AfterVirama x before
      ∧ (¬ JoinsBefore x before ∨ Transparent x after ∨ BeginsWith x (· = .Joining_Left) after)

variable (x) in
/-- A ZWNJ without a virama, after which the next character that is not of type T does not join
with the characters in front of it: it is of type U or C. -/
def Overlooked (characters : List ℕ) : Prop :=
  ∃ before after, characters = before ++ ZWNJ :: after ∧ ¬ AfterVirama x before
    ∧ BeginsWith x (fun type => type = .Joining_None ∨ type = .Joining_Causing) after

theorem refused_iff (characters : List ℕ) :
  Refused x characters ↔ HasFault x characters ∨ Waits x characters
  := by
  constructor
  · rintro (⟨before, after, rfl, hvirama⟩ | ⟨before, after, rfl, hvirama, hjoins⟩)
    · left
      use before, ZWJ, after, rfl
      exact Or.inl ⟨rfl, hvirama⟩
    · rcases hjoins with hjoins | htransparent | ⟨rest, ch, text, rfl, hrest, -, hch⟩
      · left
        use before, ZWNJ, after, rfl
        exact Or.inr (Or.inl ⟨rfl, hvirama, hjoins⟩)
      · right
        use before, ZWNJ, after
      · left
        use before ++ ZWNJ :: rest, ch, text
        constructor
        · simp
        · right
          right
          use hch, before, ZWNJ, rest
  · rintro (⟨before, ch, after, rfl, hfault⟩ | ⟨before, ch, after, rfl, hafter, rfl, hvirama⟩)
    · rcases hfault with ⟨rfl, hvirama⟩ | ⟨rfl, hvirama, hjoins⟩ | ⟨hch, hwaits⟩
      · left
        use before, after
      · right
        use before, after, rfl, hvirama
        exact Or.inl hjoins
      · obtain ⟨text, c, rest, rfl, hrest, rfl, hvirama⟩ := hwaits
        right
        use text, rest ++ ch :: after
        constructor
        · simp
        · use hvirama
          right
          right
          use rest, ch, after, rfl, hrest
          rw [hch]
          exact ⟨JoiningType.noConfusion, rfl⟩
    · right
      use before, after, rfl, hvirama
      exact Or.inr (Or.inl hafter)

/-- The first character of a text that is not of type T. -/
def firstJoining (x : CharacterData) (after : List ℕ) : Option ℕ :=
  after.find? fun ch => x.joiningType ch ≠ .Joining_Transparent

theorem transparent_iff {after : List ℕ} :
  Transparent x after ↔ firstJoining x after = none
  := by
  rw [firstJoining, List.find?_eq_none]
  simp only [decide_eq_true_eq, ne_eq, not_not]
  rfl

theorem beginsWith_iff {p : JoiningType → Prop} {after : List ℕ} :
  BeginsWith x p after ↔ ∃ ch, firstJoining x after = some ch ∧ p (x.joiningType ch)
  := by
  constructor
  · rintro ⟨rest, ch, text, rfl, hrest, hch, hp⟩
    use ch
    constructor
    · rw [firstJoining, List.find?_eq_some_iff_append]
      constructor
      · exact decide_eq_true hch
      · use rest, text, rfl
        intro c hc
        rw [Bool.not_eq_true', decide_eq_false_iff_not, not_not]
        apply hrest c hc
    · apply hp
  · rintro ⟨ch, hfind, hp⟩
    obtain ⟨hch, rest, text, rfl, hrest⟩ := List.find?_eq_some_iff_append.mp hfind
    use rest, ch, text, rfl
    constructor
    · intro c hc
      have htype := hrest c hc
      rw [Bool.not_eq_true', decide_eq_false_iff_not, not_not] at htype
      apply htype
    · exact ⟨of_decide_eq_true hch, hp⟩

/-- The rules for a ZWNJ leave three ways to fail besides those that are overlooked. -/
theorem joinsAfter_iff (after : List ℕ) :
  JoinsAfter x after ↔
    ¬ (Transparent x after ∨ BeginsWith x (· = .Joining_Left) after)
      ∧ ¬ BeginsWith x (fun type => type = .Joining_None ∨ type = .Joining_Causing) after
  := by
  rw [JoinsAfter, transparent_iff, beginsWith_iff, beginsWith_iff, beginsWith_iff]
  cases hfind : firstJoining x after with
  | none => simp
  | some ch =>
    have hch : x.joiningType ch ≠ .Joining_Transparent := by
      rw [firstJoining] at hfind
      have hsome := List.find?_some hfind
      apply of_decide_eq_true hsome
    simp only [Option.some_inj, exists_eq_left', reduceCtorEq, false_or]
    cases htype : x.joiningType ch with
    | Joining_Transparent => exact absurd htype hch
    | Joining_None => simp
    | Joining_Causing => simp
    | Joining_Dual => simp
    | Joining_Right => simp
    | Joining_Left => simp

theorem contextRules_iff (characters : List ℕ) :
  ContextRules x characters ↔ ¬ Refused x characters ∧ ¬ Overlooked x characters
  := by
  constructor
  · intro h
    constructor
    · rintro (⟨before, after, heq, hvirama⟩ | ⟨before, after, heq, hvirama, hjoins⟩)
      · apply hvirama (h.zwj before after heq)
      · obtain ⟨hbefore, hafter⟩ := (h.zwnj before after heq).resolve_left hvirama
        rcases hjoins with hjoins | hjoins
        · apply hjoins hbefore
        · apply ((joinsAfter_iff after).mp hafter).1 hjoins
    · rintro ⟨before, after, heq, hvirama, hbegins⟩
      obtain ⟨-, hafter⟩ := (h.zwnj before after heq).resolve_left hvirama
      apply ((joinsAfter_iff after).mp hafter).2 hbegins
  · rintro ⟨hrefused, hoverlooked⟩
    constructor
    · intro before after heq
      by_contra hvirama
      apply hrefused
      left
      use before, after
    · intro before after heq
      by_cases hvirama : AfterVirama x before
      · exact Or.inl hvirama
      · right
        constructor
        · by_contra hjoins
          apply hrefused
          right
          use before, after, heq, hvirama
          exact Or.inl hjoins
        · rw [joinsAfter_iff]
          constructor
          · intro hfails
            apply hrefused
            right
            use before, after, heq, hvirama
            exact Or.inr hfails
          · intro hbegins
            apply hoverlooked
            use before, after

variable (x) in
/-- `checkContextJRules` does what the rule sets say exactly for the labels in which nothing is
overlooked, and for those that it refuses anyway. -/
theorem checkContextJRules_meets_rules (label : QString) :
  (checkContextJRules x label = true ↔
      ContextRules x (QStringIterator.codePoints replacementCharacter label)) ↔
    ¬ Overlooked x (QStringIterator.codePoints replacementCharacter label)
      ∨ Refused x (QStringIterator.codePoints replacementCharacter label)
  := by
  rw [checkContextJRules_iff, contextRules_iff, ← not_or, ← refused_iff, iff_self_and,
    ← or_iff_not_imp_left, or_comm]

end Scan

/-- The properties of U+0628, which joins on both sides, and of the joiners. -/
def behData : CharacterData where
  joiningType ch :=
    if ch = 0x628 then .Joining_Dual else if ch = ZWJ then .Joining_Causing else .Joining_None
  combiningClass _ := 0
  joiningType_zwnj := by decide
  joiningType_zwj := by decide

/-- U+0628, a ZWNJ, and a letter that does not join. -/
def behLabel : QString :=
  [0x628, 0x200c, 0x61]

theorem behLabel_accepted :
  checkContextJRules behData behLabel = true
    ∧ ¬ ContextRules behData (QStringIterator.codePoints replacementCharacter behLabel)
  := by
  have h_points : QStringIterator.codePoints replacementCharacter behLabel
      = [0x628, ZWNJ, 0x61] := by
    simp [behLabel, QStringIterator.codePoints, QStringIterator.next, QUtf8.isSurrogate, ZWNJ]
  rw [checkContextJRules, h_points]
  constructor
  · decide
  · intro h
    rcases h.zwnj [0x628] [0x61] rfl with ⟨text, ch, -, h_virama⟩ | ⟨-, h_after⟩
    · cases h_virama
    · obtain ⟨ch, h_ch, h_type⟩ := beginsWith_iff.mp h_after
      have h_first : firstJoining behData [0x61] = some 0x61 := by decide
      rw [h_first, Option.some_inj] at h_ch
      subst h_ch
      revert h_type
      decide

end QUrlIdna
