import BobUI.Corelib.Text.Utf8Inverse

/-!
# Encoding with a state

`QUtf8::convertFromUnicode` with a `QStringConverter::State`.  A surrogate at the end of the input
stays in the state, and the next call encodes it together with its first code unit.  The octets and
the surrogate that stays do not depend on where the calls are split; the errors are counted by the
main loop only, so that a call that cannot complete the surrogate in the state does not count it.
-/

namespace QUtf8

namespace Encoder

/-- What `toUtf8` returns: an error, a surrogate that no code unit follows, or the octets of a
character and the code units that are left. -/
inductive Result where
  | error
  | endOfString
  | octets (bytes : QByteArray) (src : QString)
deriving DecidableEq, Repr

/-- `QUtf8Functions::toUtf8`; it fails at surrogates only, and looks for a code unit behind
first. -/
def toUtf8 (u : UInt16) (src : QString) : Result :=
  match QUtf8.toUtf8 u src with
  | some (bytes, src) => .octets bytes src
  | none => if src = [] then .endOfString else .error

/-- The members of `QStringConverter::Flags` that concern encoding. -/
structure Flags where
  stateless : Bool
  convertInvalidToNull : Bool
  writeBom : Bool
deriving DecidableEq, Repr

/-- `QStringConverter::State`; `stateData` is the surrogate that is there where `remainingChars`
is 1. -/
structure State where
  flags : Flags
  headerDone : Bool
  stateData : Option UInt16
  invalidChars : ℕ
deriving DecidableEq, Repr

namespace State

def new (flags : Flags) : State where
  flags := flags
  headerDone := false
  stateData := none
  invalidChars := 0

/-- `appendReplacementChar`. -/
def replacement (s : State) : QByteArray :=
  if s.flags.convertInvalidToNull then [0] else replacementOctets

end State

/-- What encoding yields: octets, the surrogate at the end, and the number of errors. -/
@[ext]
structure Encoded where
  octets : QByteArray
  pending : Option UInt16
  invalidChars : ℕ
deriving DecidableEq, Repr

theorem length_of_octets {u : UInt16} {src src' : QString} {bytes : QByteArray}
    (h : toUtf8 u src = .octets bytes src') :
  src'.length ≤ src.length
  := by
  rw [toUtf8] at h
  split at h
  next hsome =>
    cases h
    apply toUtf8_length hsome
  next =>
    split at h
    next => cases h
    next => cases h

/-- The loop of `convertFromUnicode`: every surrogate that is not part of a pair is replaced. -/
def encode (replacement : QByteArray) : QString → Encoded
  | [] => ⟨[], none, 0⟩
  | u :: src =>
    match h : toUtf8 u src with
    | .error =>
      let rest := encode replacement src
      ⟨replacement ++ rest.octets, rest.pending, rest.invalidChars + 1⟩
    | .endOfString => ⟨[], some u, 0⟩
    | .octets bytes src' =>
      let rest := encode replacement src'
      ⟨bytes ++ rest.octets, rest.pending, rest.invalidChars⟩
termination_by units => units.length
decreasing_by
  · exact Nat.lt_succ_self _
  · exact Nat.lt_succ_of_le (length_of_octets h)

/-- The main body of `convertFromUnicode`, and what it does with a surrogate at the end. -/
def State.encodeRest (s : State) (src : QString) : QByteArray × State :=
  let encoded := encode s.replacement src
  if s.flags.stateless then
    match encoded.pending with
    | none => (encoded.octets, { s with invalidChars := s.invalidChars + encoded.invalidChars })
    | some _ =>
      (encoded.octets ++ s.replacement,
        { s with invalidChars := s.invalidChars + encoded.invalidChars + 1 })
  else
    (encoded.octets,
      { s with
        stateData := encoded.pending
        invalidChars := s.invalidChars + encoded.invalidChars })

/-- `QUtf8::convertFromUnicode` with a state. -/
def convertFromUnicode (input : QString) (s : State) : QByteArray × State :=
  if input = [] then ([], s)
  else if s.flags.stateless then s.encodeRest input
  else
    match s.stateData with
    | some u =>
      let (cursor, src) :=
        match toUtf8 u input with
        | .octets bytes src => (bytes, src)
        | _ => (s.replacement, input)
      let (rest, s') := State.encodeRest { s with stateData := none } src
      (cursor ++ rest, s')
    | none =>
      if !s.headerDone && s.flags.writeBom then
        let (rest, s') := State.encodeRest { s with headerDone := true } input
        (utf8bom ++ rest, s')
      else s.encodeRest input

/-- Successive calls on one state. -/
def convertChunks : List QString → State → QByteArray × State
  | [], s => ([], s)
  | input :: chunks, s =>
    let (octets, s) := convertFromUnicode input s
    let (rest, s) := convertChunks chunks s
    (octets ++ rest, s)

/-! ### Code units that are encoded in parts -/

section

variable {u : UInt16} {src src' : QString} {bytes : QByteArray}

theorem eq_nil_of_endOfString (h : toUtf8 u src = .endOfString) :
  src = []
  := by
  rw [toUtf8] at h
  split at h
  next => cases h
  next =>
    split at h
    next hnil => apply hnil
    next => cases h

/-- Code units behind those that are looked at do not matter. -/
theorem some_append (h : src ≠ []) (rest : QString) :
  QUtf8.toUtf8 u (src ++ rest) = (QUtf8.toUtf8 u src).map fun (bytes, src') => (bytes, src' ++ rest)
  := by
  cases src with
  | nil => cases h rfl
  | cons low src =>
    unfold QUtf8.toUtf8
    split
    next => rfl
    next =>
      split
      next => rfl
      next =>
        split
        next => rfl
        next =>
          dsimp only [List.cons_append]
          split
          next => rfl
          next => rfl

theorem toUtf8_append (h : src ≠ []) (rest : QString) :
  toUtf8 u (src ++ rest) =
    match toUtf8 u src with
    | .octets bytes src' => .octets bytes (src' ++ rest)
    | r => r
  := by
  rw [toUtf8, toUtf8, some_append h]
  cases QUtf8.toUtf8 u src with
  | none =>
    rw [Option.map_none]
    dsimp only
    rw [if_neg h, if_neg (by simp [h])]
  | some result => rfl

theorem toUtf8_nil (h : toUtf8 u [] = .octets bytes src') :
  src' = [] ∧ ∀ rest, toUtf8 u rest = .octets bytes rest
  := by
  rw [toUtf8] at h
  split at h
  next bytes' src'' hsome =>
    cases h
    rcases toUtf8_rest hsome with ⟨hsrc, hsingle, -⟩ | ⟨low, hsrc, -⟩
    · obtain ⟨octets, hoctets⟩ := toUtf8_single hsingle
      rw [hoctets] at hsome
      cases hsome
      use rfl
      intro rest
      rw [toUtf8, hoctets]
    · cases hsrc
  next =>
    split at h
    next => cases h
    next => cases h

theorem encode_of_error (h : toUtf8 u src = .error) (r : QByteArray) :
  encode r (u :: src) = ⟨r ++ (encode r src).octets, (encode r src).pending,
    (encode r src).invalidChars + 1⟩
  := by
  rw [encode.eq_def]
  dsimp only
  split
  next => rfl
  next hend => rw [h] at hend; cases hend
  next hoctets => rw [h] at hoctets; cases hoctets

theorem encode_of_endOfString (h : toUtf8 u src = .endOfString) (r : QByteArray) :
  encode r (u :: src) = ⟨[], some u, 0⟩
  := by
  rw [encode.eq_def]
  dsimp only
  split
  next herror => rw [h] at herror; cases herror
  next => rfl
  next hoctets => rw [h] at hoctets; cases hoctets

theorem encode_of_octets (h : toUtf8 u src = .octets bytes src') (r : QByteArray) :
  encode r (u :: src) = ⟨bytes ++ (encode r src').octets, (encode r src').pending,
    (encode r src').invalidChars⟩
  := by
  rw [encode.eq_def]
  dsimp only
  split
  next herror => rw [h] at herror; cases herror
  next hend => rw [h] at hend; cases hend
  next hoctets =>
    rw [h] at hoctets
    cases hoctets
    rfl

end

/-! ### Successive calls -/

/-- Encoding, and then encoding more. -/
def Encoded.andThen (d e : Encoded) : Encoded :=
  ⟨d.octets ++ e.octets, e.pending, d.invalidChars + e.invalidChars⟩

theorem Encoded.nil_andThen (p : Option UInt16) (e : Encoded) :
  (⟨[], p, 0⟩ : Encoded).andThen e = e
  := by
  rw [andThen, List.nil_append, Nat.zero_add]

/-- The code units that are encoded first are followed by those behind the surrogate at their
end. -/
theorem encode_append (r : QByteArray) (units rest : QString) :
  encode r (units ++ rest)
    = (encode r units).andThen (encode r ((encode r units).pending.toList ++ rest))
  := by
  induction units using encode.induct r with
  | case1 =>
    rw [encode]
    exact (Encoded.nil_andThen none _).symm
  | case2 u src herror ih =>
    have hsrc : src ≠ [] := by
      rintro rfl
      rw [toUtf8] at herror
      split at herror
      next => cases herror
      next => cases herror
    have hmore : toUtf8 u (src ++ rest) = .error := by
      rw [toUtf8_append hsrc, herror]
    rw [List.cons_append, encode_of_error hmore, encode_of_error herror, ih]
    simp only [Encoded.andThen, List.append_assoc, Encoded.mk.injEq, true_and]
    omega
  | case3 u src hend =>
    obtain rfl := eq_nil_of_endOfString hend
    rw [encode_of_endOfString hend, Encoded.nil_andThen]
    rfl
  | case4 u src bytes src' hoctets ih =>
    have hmore : toUtf8 u (src ++ rest) = .octets bytes (src' ++ rest) := by
      by_cases hsrc : src = []
      · subst hsrc
        obtain ⟨rfl, hrest⟩ := toUtf8_nil hoctets
        apply hrest
      · rw [toUtf8_append hsrc, hoctets]
    rw [List.cons_append, encode_of_octets hmore, encode_of_octets hoctets, ih]
    simp only [Encoded.andThen, List.append_assoc]

/-- A surrogate that stays is one that no code unit follows. -/
def Pending (p : Option UInt16) : Prop :=
  ∀ u ∈ p, toUtf8 u [] = .endOfString

theorem pending_encode (r : QByteArray) (units : QString) :
  Pending (encode r units).pending
  := by
  induction units using encode.induct r with
  | case1 =>
    rw [encode]
    intro u hu
    cases hu
  | case2 u src herror ih =>
    rw [encode_of_error herror]
    apply ih
  | case3 u src hend =>
    rw [encode_of_endOfString hend]
    rintro u' ⟨⟩
    rw [← eq_nil_of_endOfString hend]
    apply hend
  | case4 u src bytes src' hoctets ih =>
    rw [encode_of_octets hoctets]
    apply ih

theorem encode_pending {p : Option UInt16} (h : Pending p) (r : QByteArray) :
  encode r p.toList = ⟨[], p, 0⟩
  := by
  cases p with
  | none => rw [Option.toList_none, encode]
  | some u => rw [Option.toList_some, encode_of_endOfString (h u rfl)]

/-- The surrogate that stays does not depend on what stands for the others. -/
theorem pending_encode_eq (r r' : QByteArray) (units : QString) :
  (encode r units).pending = (encode r' units).pending
  := by
  induction units using encode.induct r with
  | case1 => rw [encode, encode]
  | case2 u src herror ih => rw [encode_of_error herror, encode_of_error herror, ih]
  | case3 u src hend => rw [encode_of_endOfString hend, encode_of_endOfString hend]
  | case4 u src bytes src' hoctets ih =>
    rw [encode_of_octets hoctets, encode_of_octets hoctets, ih]

/-- The first code unit of a call does not complete the surrogate in the state. -/
def breaks : Option UInt16 → QString → Bool
  | some u, c :: _ => !(isHighSurrogate u && isLowSurrogate c)
  | _, _ => false

/-- A surrogate in front of code units: an error where they break it, and a pair where not. -/
theorem toUtf8_of_pending {u : UInt16} (h : toUtf8 u [] = .endOfString) (c : UInt16)
    (src : QString) :
  if breaks (some u) (c :: src) then toUtf8 u (c :: src) = .error
  else ∃ bytes, toUtf8 u (c :: src) = .octets bytes src
  := by
  have hsurrogate : isSurrogate u.toNat = true := by
    by_contra hnot
    obtain ⟨bytes, hbytes⟩ := toUtf8_single (Bool.not_eq_true _ ▸ hnot)
    rw [toUtf8, hbytes] at h
    cases h
  split
  next hbreaks =>
    rw [toUtf8]
    split
    next bytes src' hsome =>
      rcases toUtf8_rest hsome with ⟨-, hsingle, -⟩ | ⟨low, hsrc, hhigh, hlow, -⟩
      · rw [hsurrogate] at hsingle
        cases hsingle
      · obtain ⟨rfl, -⟩ := List.cons.inj hsrc
        rw [breaks, hhigh, hlow] at hbreaks
        cases hbreaks
    next => rw [if_neg (List.cons_ne_nil c src)]
  next hresumes =>
    rw [breaks, Bool.not_eq_true, Bool.not_eq_false', Bool.and_eq_true] at hresumes
    obtain ⟨b, bytes, -, hpair⟩ := toUtf8_pair hresumes.1 hresumes.2
    use b :: bytes
    rw [toUtf8, hpair]

/-- The byte order mark that a call writes. -/
def State.bom (s : State) (input : QString) : QByteArray :=
  if input ≠ [] ∧ s.headerDone = false ∧ s.flags.writeBom = true then utf8bom else []

/-- The states that calls lead to. -/
structure State.Reached (s : State) : Prop where
  stateful : s.flags.stateless = false
  pending : Pending s.stateData
  header : s.stateData ≠ none → s.flags.writeBom = true → s.headerDone = true

theorem encodeRest_eq (s : State) (h : s.flags.stateless = false) (src : QString) :
  s.encodeRest src = ((encode s.replacement src).octets,
    { s with
      stateData := (encode s.replacement src).pending
      invalidChars := s.invalidChars + (encode s.replacement src).invalidChars })
  := by
  rw [State.encodeRest, h]
  rfl

/-- A call encodes its code units behind the surrogate in the state, and does not count the error
where they break it. -/
theorem convertFromUnicode_ends {s : State} (h : s.Reached) (input : QString) :
  ∃ octets s', convertFromUnicode input s = (s.bom input ++ octets, s')
    ∧ s'.Reached ∧ s'.flags = s.flags
    ∧ s'.headerDone = (s.headerDone || (input ≠ [] && s.flags.writeBom))
    ∧ ∃ invalidChars, encode s.replacement (s.stateData.toList ++ input)
        = ⟨octets, s'.stateData, invalidChars⟩
      ∧ s'.invalidChars + (if breaks s.stateData input then 1 else 0)
        = s.invalidChars + invalidChars
  := by
  cases input with
  | nil =>
    have hencode := encode_pending h.pending s.replacement
    use [], s
    constructor
    · rw [convertFromUnicode, if_pos rfl, State.bom, if_neg (fun hbom => hbom.1 rfl)]
      rfl
    constructor
    · apply h
    constructor
    · rfl
    constructor
    · simp
    · use 0
      rw [List.append_nil]
      use hencode
      cases s.stateData with
      | none => rfl
      | some u => rfl
  | cons c src =>
    have hne : c :: src ≠ [] := List.cons_ne_nil c src
    rw [convertFromUnicode, if_neg hne, if_neg (by rw [h.stateful]; decide)]
    cases hdata : s.stateData with
    | some u =>
      have hheader := h.header (by rw [hdata]; exact Option.some_ne_none u)
      have hbom : s.bom (c :: src) = [] := by
        rw [State.bom, if_neg]
        rintro ⟨-, hnot, hwrite⟩
        rw [hheader hwrite] at hnot
        cases hnot
      have hdone : s.headerDone
          = (s.headerDone || ((c :: src) ≠ [] && s.flags.writeBom)) := by
        cases hwrite : s.flags.writeBom with
        | false => simp
        | true => simp [hheader hwrite]
      have hpending := toUtf8_of_pending (h.pending u hdata) c src
      rw [hbom]
      dsimp only
      split at hpending
      next hbreaks =>
        rw [hpending, encodeRest_eq { s with stateData := none } h.stateful]
        refine ⟨_, _, rfl, ⟨h.stateful, pending_encode _ _, fun _ => hheader⟩, rfl, hdone,
          _, encode_of_error hpending _, ?_⟩
        rw [if_pos hbreaks]
        exact Nat.add_assoc _ _ _
      next hresumes =>
        obtain ⟨bytes, hbytes⟩ := hpending
        rw [hbytes, encodeRest_eq { s with stateData := none } h.stateful]
        refine ⟨_, _, rfl, ⟨h.stateful, pending_encode _ _, fun _ => hheader⟩, rfl, hdone,
          _, encode_of_octets hbytes _, ?_⟩
        rw [if_neg hresumes]
        rfl
    | none =>
      dsimp only
      split
      next hbom =>
        rw [Bool.and_eq_true, Bool.not_eq_true'] at hbom
        rw [encodeRest_eq { s with headerDone := true, stateData := none } h.stateful,
          State.bom, if_pos ⟨hne, hbom⟩]
        refine ⟨_, _, rfl, ⟨h.stateful, pending_encode _ _, fun _ _ => rfl⟩, rfl, ?_,
          _, rfl, rfl⟩
        simp [hbom.2]
      next hbom =>
        rw [Bool.and_eq_true, Bool.not_eq_true'] at hbom
        have hno : s.bom (c :: src) = [] := by
          rw [State.bom, if_neg (fun hboth => hbom hboth.2)]
        have hheader : s.flags.writeBom = true → s.headerDone = true := by
          intro hwrite
          by_contra hnot
          apply hbom ⟨Bool.not_eq_true _ ▸ hnot, hwrite⟩
        rw [encodeRest_eq s h.stateful, hno]
        refine ⟨_, _, rfl, ⟨h.stateful, pending_encode _ _, fun _ => hheader⟩, rfl, ?_,
          _, rfl, rfl⟩
        cases hwrite : s.flags.writeBom with
        | false => simp
        | true => simp [hheader hwrite]

/-- The surrogate that stays behind code units. -/
def pending (units : QString) : Option UInt16 :=
  (encode replacementOctets units).pending

theorem pending_none :
  Pending none
  := by
  intro u hu
  cases hu

/-- The calls that break the surrogate `p` or one that they leave in the state. -/
def breaksIn (p : Option UInt16) : List QString → ℕ
  | [] => 0
  | input :: chunks =>
    (if breaks p input then 1 else 0)
      + breaksIn (pending (p.toList ++ input)) chunks

theorem State.bom_append {s s' : State} (hflags : s'.flags = s.flags) {input : QString}
    (hdone : s'.headerDone = (s.headerDone || (input ≠ [] && s.flags.writeBom)))
    (rest : QString) :
  s.bom (input ++ rest) = s.bom input ++ s'.bom rest ∧ (input = [] ∨ s'.bom rest = [])
  := by
  rw [bom, bom, bom, hflags, hdone]
  by_cases hinput : input = []
  · subst hinput
    simp
  · cases s.headerDone with
    | false =>
      cases s.flags.writeBom with
      | false => simp
      | true => simp [hinput]
    | true => simp

/-- Calls encode their code units one after the other behind the surrogate in the state, and do not
count the errors where they break one. -/
theorem convertChunks_ends {s : State} (h : s.Reached) (chunks : List QString) :
  ∃ octets s', convertChunks chunks s = (s.bom chunks.flatten ++ octets, s')
    ∧ ∃ invalidChars, encode s.replacement (s.stateData.toList ++ chunks.flatten)
        = ⟨octets, s'.stateData, invalidChars⟩
      ∧ s'.invalidChars + breaksIn s.stateData chunks = s.invalidChars + invalidChars
  := by
  induction chunks generalizing s with
  | nil =>
    use [], s
    constructor
    · rw [convertChunks, List.flatten_nil, State.bom, if_neg (fun hbom => hbom.1 rfl)]
      rfl
    · use 0
      rw [List.flatten_nil, List.append_nil]
      use encode_pending h.pending s.replacement
      rfl
  | cons input chunks ih =>
    obtain ⟨octets, s₁, hcall, hreached, hflags, hdone, count, hencode, hcount⟩ :=
      convertFromUnicode_ends h input
    obtain ⟨octets', s', hcalls, count', hencode', hcount'⟩ := ih hreached
    have hreplacement : s₁.replacement = s.replacement := by
      rw [State.replacement, State.replacement, hflags]
    obtain ⟨hbom, honce⟩ := State.bom_append hflags hdone chunks.flatten
    have hswap : octets ++ s₁.bom chunks.flatten = s₁.bom chunks.flatten ++ octets := by
      rcases honce with rfl | hno
      · rw [List.append_nil, encode_pending h.pending] at hencode
        rw [← (Encoded.mk.inj hencode).1, List.append_nil, List.nil_append]
      · rw [hno, List.append_nil, List.nil_append]
    have hpending : pending (s.stateData.toList ++ input) = s₁.stateData := by
      rw [pending, pending_encode_eq _ s.replacement, hencode]
    rw [hreplacement] at hencode'
    use octets ++ octets', s'
    constructor
    · rw [convertChunks, hcall]
      dsimp only
      rw [hcalls, List.flatten_cons, hbom, List.append_assoc (s.bom input),
        ← List.append_assoc octets, hswap]
      simp only [List.append_assoc]
    · use count + count'
      rw [List.flatten_cons, ← List.append_assoc, encode_append, hencode]
      dsimp only
      rw [hencode', breaksIn, hpending]
      use rfl
      omega

/-- No call breaks the surrogate that stays where it starts. -/
def ResumesAlways (chunks : List QString) : Prop :=
  ∀ before input after, chunks = before ++ input :: after →
    breaks (pending before.flatten) input = false

theorem breaksIn_eq_zero_iff {p : Option UInt16} (h : Pending p) (chunks : List QString) :
  breaksIn p chunks = 0 ↔ ∀ before input after, chunks = before ++ input :: after →
    breaks (pending (p.toList ++ before.flatten)) input = false
  := by
  induction chunks generalizing p with
  | nil =>
    constructor
    · intro _ before input after hsplit
      cases List.append_ne_nil_of_right_ne_nil before (List.cons_ne_nil input after) hsplit.symm
    · intro _
      rfl
  | cons chunk chunks ih =>
    have hfirst : pending (p.toList ++ ([] : List QString).flatten) = p := by
      rw [List.flatten_nil, List.append_nil, pending, encode_pending h]
    have hnext : ∀ before : List QString,
        pending ((pending (p.toList ++ chunk)).toList ++ before.flatten)
          = pending (p.toList ++ (chunk :: before).flatten) := by
      intro before
      rw [List.flatten_cons, ← List.append_assoc, pending, pending, pending,
        encode_append _ (_ ++ _)]
      rfl
    have hpending : Pending (pending (p.toList ++ chunk)) := pending_encode _ _
    rw [breaksIn, Nat.add_eq_zero_iff, ih hpending]
    constructor
    · rintro ⟨hchunk, hrest⟩ before input after hsplit
      cases before with
      | nil =>
        obtain ⟨rfl, -⟩ := List.cons.inj hsplit
        rw [hfirst]
        by_contra hbreaks
        rw [if_pos (Bool.not_eq_false _ ▸ hbreaks)] at hchunk
        cases hchunk
      | cons first before =>
        obtain ⟨rfl, hchunks⟩ := List.cons.inj hsplit
        rw [← hnext]
        apply hrest before input after hchunks
    · intro hall
      constructor
      · have hchunk := hall [] chunk chunks rfl
        rw [hfirst] at hchunk
        rw [hchunk]
        rfl
      · intro before input after hsplit
        rw [hnext]
        apply hall (chunk :: before) input after
        rw [hsplit, List.cons_append]

/-- What calls on a new state have yielded. -/
def outcome (result : QByteArray × State) : Encoded :=
  ⟨result.1, result.2.stateData, result.2.invalidChars⟩

theorem reached_new {flags : Flags} (h : flags.stateless = false) :
  (State.new flags).Reached
  := ⟨h, pending_none, fun hnone => absurd rfl hnone⟩

/-- The calls on one state yield the octets that a single call yields, and the surrogate that it
leaves in the state, and as many errors but for the calls that break a surrogate. -/
theorem convertChunks_counts {flags : Flags} (h : flags.stateless = false)
    (chunks : List QString) :
  (outcome (convertChunks chunks (.new flags))).octets
      = (outcome (convertFromUnicode chunks.flatten (.new flags))).octets
    ∧ (outcome (convertChunks chunks (.new flags))).pending
      = (outcome (convertFromUnicode chunks.flatten (.new flags))).pending
    ∧ (outcome (convertChunks chunks (.new flags))).invalidChars + breaksIn none chunks
      = (outcome (convertFromUnicode chunks.flatten (.new flags))).invalidChars
  := by
  obtain ⟨octets, s, hcall, -, -, -, count, hencode, hcount⟩ :=
    convertFromUnicode_ends (reached_new h) chunks.flatten
  obtain ⟨octets', s', hcalls, count', hencode', hcount'⟩ :=
    convertChunks_ends (reached_new h) chunks
  rw [hencode, Encoded.mk.injEq] at hencode'
  obtain ⟨rfl, hpending, rfl⟩ := hencode'
  rw [hcall, hcalls]
  use rfl, hpending.symm
  have hnone : (if breaks (State.new flags).stateData chunks.flatten = true then 1 else 0) = 0 :=
    rfl
  rw [hnone] at hcount
  exact hcount'.trans hcount.symm

/-- The calls on one state yield what a single call yields if and only if no call breaks the
surrogate that stays where it starts. -/
theorem encodedChunks_iff (flags : Flags) (h : flags.stateless = false) (chunks : List QString) :
  outcome (convertChunks chunks (.new flags))
      = outcome (convertFromUnicode chunks.flatten (.new flags)) ↔
    ResumesAlways chunks
  := by
  obtain ⟨h_octets, h_pending, h_count⟩ := convertChunks_counts h chunks
  have h_breaks : breaksIn none chunks = 0 ↔ ResumesAlways chunks :=
    breaksIn_eq_zero_iff pending_none chunks
  rw [← h_breaks]
  constructor
  · intro h_eq
    rw [h_eq] at h_count
    omega
  · intro h_zero
    rw [h_zero] at h_count
    apply Encoded.ext h_octets h_pending h_count

/-- A pair whose halves come in two calls, with a byte order mark. -/
theorem encodedChunks_iff_pair :
  outcome (convertChunks [[0xd83d], [0xde00]] (.new ⟨false, false, true⟩))
      = outcome (convertFromUnicode [0xd83d, 0xde00] (.new ⟨false, false, true⟩)) ↔
    ResumesAlways [[0xd83d], [0xde00]]
  := encodedChunks_iff ⟨false, false, true⟩ rfl [[0xd83d], [0xde00]]

/-- A surrogate in front of a letter that comes with the next call: the error is not counted. -/
theorem encodedChunks_uncounted :
  outcome (convertChunks [[0xd83d], [0x41]] (.new ⟨false, false, false⟩))
    ≠ outcome (convertFromUnicode [0xd83d, 0x41] (.new ⟨false, false, false⟩))
  := by
  have h_end : toUtf8 0xd83d [] = .endOfString := by decide
  have h_error : toUtf8 0xd83d [0x41] = .error := by decide
  have h_letter : toUtf8 0x41 [] = .octets [0x41] [] := by decide
  simp [outcome, convertChunks, convertFromUnicode, State.new, encodeRest_eq, State.replacement,
    encode, encode_of_endOfString h_end, encode_of_error h_error, encode_of_octets h_letter,
    h_error]

end Encoder

end QUtf8
