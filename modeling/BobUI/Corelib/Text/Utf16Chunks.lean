import BobUI.Corelib.Text.WideEncodings
import BobUI.Library.Transducers

/-!
# Decoding UTF-16 in chunks

`convertToUnicode` reads as a machine does that takes one octet at a time, unless a call takes the
order of the host where another would detect the order.

* `convertToUnicode_chunks_iff`: when successive calls yield what one call yields.
-/

open QStringConverter Transducer

namespace QUtf16

variable {order : Endian} {flags : Flags} {endian e : DataEndianness}

theorem swapped_ofCellRow (cell row : UInt8) :
  swapped (ofCellRow cell row) = ofCellRow row cell
  := by
  have hmask : ∀ i, (h : i < 16) → (255#16)[i] = decide (i < 8) := by decide
  rw [swapped, ofCellRow, ofCellRow, ← UInt16.toBitVec_inj]
  ext i hi
  simp
  by_cases h : i < 8
  · have := hmask i (by omega)
    simp [h]
    grind
  · have := hmask (i - 8) (by omega)
    simp [h]
    grind

/-- The endianness of a first code unit. -/
def resolve (order : Endian) (endian : DataEndianness) : QByteArray → DataEndianness
  | [first, second] =>
    if endian = .detectEndianness then detect order (ofCellRow first second) else endian
  | _ => endian

/-- The code unit of two octets. -/
def emit (endian : DataEndianness) : QByteArray → QString
  | [first, second] => [unit endian first second]
  | _ => []

/-- The first code unit, unless it is a byte order mark that is not text. -/
def emitFirst (flags : Flags) (endian : DataEndianness) : QByteArray → QString
  | [first, second] =>
    if flags.convertInitialBom || unit endian first second ≠ 0xfeff then
      [unit endian first second]
    else []
  | _ => []

/-- The machine that decodes octet after octet. -/
abbrev machine (order : Endian) (flags : Flags) (endian : DataEndianness) :=
  blockStep 2 (resolve order endian) (emitFirst flags) emit

/-- The first two octets are still to be read, and the call that reads them detects their order,
or the order is known. -/
def ReadsAs (flags : Flags) (endian : DataEndianness) (s : Option DataEndianness × QByteArray)
    (t : State UInt8) : Prop :=
  t.flags = flags ∧ t.data = s.2 ∧ s.2.length < 2
    ∧ match s.1 with
      | none => t.headerDone = false ∧ t.endian = .detectEndianness
        ∧ (endian = .detectEndianness → flags.convertInitialBom = true → s.2 ≠ [])
      | some e => e ≠ .detectEndianness ∧ t.bomDone = true ∧ t.endianness endian = e

variable {a b : UInt8} {pending l rest : QByteArray}

theorem machine_first (h : pending.length < 2) (hl : pending ++ l = a :: b :: rest) :
  transduce (machine order flags endian) (none, pending) l
    = (emitFirst flags (resolve order endian [a, b]) [a, b]
        ++ (transduce (machine order flags endian) (some (resolve order endian [a, b]), []) rest).1,
      (transduce (machine order flags endian) (some (resolve order endian [a, b]), []) rest).2)
  := by
  have hblock : [a, b].length = 2 := rfl
  apply transduce_first hblock h hl

theorem machine_next (e : DataEndianness) (h : pending.length < 2)
    (hl : pending ++ l = a :: b :: rest) :
  transduce (machine order flags endian) (some e, pending) l
    = (unit e a b :: (transduce (machine order flags endian) (some e, []) rest).1,
      (transduce (machine order flags endian) (some e, []) rest).2)
  := by
  have hblock : [a, b].length = 2 := rfl
  apply transduce_next hblock h hl

/-- Once the order is known, the machine decodes pairs. -/
theorem transduce_units (e : DataEndianness) (l : QByteArray) :
  transduce (machine order flags endian) (some e, []) l
    = ((units e l).1, some e, (units e l).2)
  := by
  induction l using units.induct with
  | case1 first second chars ih =>
    rw [machine_next e (by exact Nat.zero_lt_two) rfl, ih]
    rfl
  | case2 chars h =>
    have hlength : chars.length < 2 := by
      rcases chars with _ | ⟨a, _ | ⟨b, chars⟩⟩
      · exact Nat.zero_lt_two
      · exact Nat.one_lt_two
      · exact absurd rfl (h a b chars)
    rw [transduce_short (by exact hlength), units]
    · rfl
    · exact h

theorem units_length (e : DataEndianness) (l : QByteArray) :
  (units e l).2.length < 2
  := by
  induction l using units.induct with
  | case1 first second chars ih => exact ih
  | case2 chars h =>
    rcases chars with _ | ⟨a, _ | ⟨b, chars⟩⟩
    · exact Nat.zero_lt_two
    · exact Nat.one_lt_two
    · exact absurd rfl (h a b chars)

variable {t : State UInt8} {s : Option DataEndianness × QByteArray}

theorem finish_eq (h : t.flags.stateless = false) (e : DataEndianness) (out : QString)
    (chars : QByteArray) :
  finish t e out chars
    = (out ++ (units e chars).1, { t with endian := e, data := (units e chars).2 })
  := by
  rw [finish, h, Bool.false_and, if_neg Bool.false_ne_true]

theorem unit_eq (e : DataEndianness) (a b : UInt8) :
  (if e = .bigEndianness then swapped (ofCellRow a b) else ofCellRow a b) = unit e a b
  := by
  rw [swapped_ofCellRow, unit]

/-- A call that decodes nothing. -/
theorem convertToUnicode_short (h : (t.data ++ l).length < 2) :
  convertToUnicode order l t endian = ([], { t with data := t.data ++ l })
  := by
  unfold convertToUnicode
  split
  next first second chars hdata =>
    rw [hdata] at h
    simp only [List.length_cons] at h
    omega
  next => rfl

/-- A call that detects the order if need be. -/
theorem convertToUnicode_first (hstateless : t.flags.stateless = false)
    (h : t.data ++ l = a :: b :: rest) (hfirst : t.bomDone = false ∨ t.data ≠ []) :
  convertToUnicode order l t endian
    = ((if t.bomDone || unit (resolve order (t.endianness endian) [a, b]) a b ≠ 0xfeff then
        [unit (resolve order (t.endianness endian) [a, b]) a b] else [])
        ++ (units (resolve order (t.endianness endian) [a, b]) rest).1,
      { t with
        headerDone := true
        endian := resolve order (t.endianness endian) [a, b]
        data := (units (resolve order (t.endianness endian) [a, b]) rest).2 })
  := by
  have hbranch : (!t.bomDone || decide (t.data ≠ [])) = true := by
    rw [Bool.or_eq_true, Bool.not_eq_true', decide_eq_true_iff]
    exact hfirst
  rw [convertToUnicode, h]
  dsimp only
  rw [if_pos hbranch, finish_eq (by exact hstateless), unit_eq]
  rfl

/-- A call that takes the order as known, or the host's. -/
theorem convertToUnicode_next (hstateless : t.flags.stateless = false) (h : l = a :: b :: rest)
    (hdone : t.bomDone = true) (hdata : t.data = []) :
  convertToUnicode order l t endian
    = ((units (if t.endianness endian = .detectEndianness then order.host
        else t.endianness endian) l).1,
      { t with
        endian := if t.endianness endian = .detectEndianness then order.host
          else t.endianness endian
        data := (units (if t.endianness endian = .detectEndianness then order.host
          else t.endianness endian) l).2 })
  := by
  have hbranch : ¬(!t.bomDone || decide (t.data ≠ [])) = true := by
    rw [hdone, decide_eq_false (not_not_intro hdata)]
    exact Bool.false_ne_true
  have hl : t.data ++ l = a :: b :: rest := by rw [hdata, List.nil_append, h]
  rw [convertToUnicode, hl]
  dsimp only
  rw [if_neg hbranch, finish_eq hstateless, List.nil_append]

/-- The state after a call that decodes. -/
theorem readsAs_units (hflags : t.flags = flags) (hdone : t.bomDone = true)
    (he : e ≠ .detectEndianness) (h : endian = .detectEndianness ∨ endian = e)
    (chars : QByteArray) :
  ReadsAs flags endian (some e, (units e chars).2)
    { t with endian := e, data := (units e chars).2 }
  := by
  refine ⟨hflags, rfl, units_length e chars, he, hdone, ?_⟩
  rw [State.endianness]
  rcases h with h | h
  · rw [if_pos h]
  · rw [if_neg (by rw [h]; exact he), h]

theorem resolve_ne (order : Endian) (endian : DataEndianness) (a b : UInt8) :
  resolve order endian [a, b] ≠ .detectEndianness
  := by
  rw [resolve]
  split
  · rw [detect]
    split
    · exact DataEndianness.noConfusion
    · split
      · exact DataEndianness.noConfusion
      · cases order <;> exact DataEndianness.noConfusion
  · assumption

theorem resolve_eq (h : endian ≠ .detectEndianness) (order : Endian) (block : QByteArray) :
  resolve order endian block = endian
  := by
  unfold resolve
  split
  · rw [if_neg h]
  · rfl

theorem endianness_of_detect (h : t.endian = .detectEndianness) (endian : DataEndianness) :
  t.endianness endian = endian
  := by
  rw [State.endianness]
  split
  next hendian => rw [h, hendian]
  next => rfl

/-- One call reads as the machine does. -/
theorem convertToUnicode_reads (order : Endian) (hstateless : flags.stateless = false)
    (h : ReadsAs flags endian s t) (l : QByteArray) :
  (convertToUnicode order l t endian).1 = (transduce (machine order flags endian) s l).1
    ∧ ReadsAs flags endian (transduce (machine order flags endian) s l).2
      (convertToUnicode order l t endian).2
  := by
  obtain ⟨mode, pending⟩ := s
  obtain ⟨rfl, hdata, hpending, hmode⟩ := h
  dsimp only at hdata hpending hmode
  rcases Nat.lt_or_ge (t.data ++ l).length 2 with hshort | hlong
  · rw [convertToUnicode_short hshort, hdata, transduce_short (by rwa [← hdata])]
    refine ⟨rfl, rfl, rfl, by rwa [← hdata], ?_⟩
    cases mode with
    | none =>
      obtain ⟨hheader, hendian, hbom⟩ := hmode
      refine ⟨hheader, hendian, fun hdetect hinitial hnil => ?_⟩
      exact hbom hdetect hinitial (List.append_eq_nil_iff.mp hnil).1
    | some e => exact hmode
  · obtain ⟨a, b, rest, hl⟩ : ∃ a b rest, t.data ++ l = a :: b :: rest := by
      rcases heq : t.data ++ l with _ | ⟨a, _ | ⟨b, rest⟩⟩
      · rw [heq] at hlong
        cases hlong
      · rw [heq] at hlong
        simp at hlong
      · exact ⟨a, b, rest, rfl⟩
    cases mode with
    | none =>
      obtain ⟨hheader, hendian, hbom⟩ := hmode
      have hdone : t.bomDone = t.flags.convertInitialBom := by
        rw [State.bomDone, hheader, Bool.false_or]
      have hown : endian = .detectEndianness ∨ endian = resolve order endian [a, b] := by
        rcases eq_or_ne endian .detectEndianness with hdetect | hdetect
        · left
          exact hdetect
        · right
          rw [resolve_eq hdetect]
      rw [machine_first hpending (by rwa [← hdata]), transduce_units]
      rcases em (t.bomDone = false ∨ t.data ≠ []) with hfirst | hnext
      · rw [convertToUnicode_first hstateless hl hfirst, endianness_of_detect hendian, hdone]
        use rfl
        apply readsAs_units (t := { t with headerDone := true }) rfl rfl
          (resolve_ne order endian a b) hown
      · obtain ⟨hbomDone, hnil⟩ := not_or.mp hnext
        rw [Bool.not_eq_false] at hbomDone
        rw [not_not] at hnil
        have hknown : endian ≠ .detectEndianness := by
          intro hdetect
          apply hbom hdetect (by rw [← hdone, hbomDone])
          rw [← hdata, hnil]
        rw [hnil, List.nil_append] at hl
        rw [convertToUnicode_next hstateless hl hbomDone hnil, endianness_of_detect hendian,
          if_neg hknown, resolve_eq hknown, hl, units, emitFirst, ← hdone, hbomDone]
        use rfl
        apply readsAs_units rfl hbomDone hknown (.inr rfl)
    | some e =>
      obtain ⟨he, hdone, hendian⟩ := hmode
      have hown : endian = .detectEndianness ∨ endian = e := by
        rw [State.endianness] at hendian
        split at hendian
        next hdetect => exact .inl hdetect
        next => exact .inr hendian
      rw [machine_next e hpending (by rwa [← hdata]), transduce_units]
      rcases em (t.data = []) with hnil | hfirst
      · rw [hnil, List.nil_append] at hl
        rw [convertToUnicode_next hstateless hl hdone hnil, hendian, if_neg he, hl, units]
        use rfl
        apply readsAs_units rfl hdone he hown
      · rw [convertToUnicode_first hstateless hl (.inr hfirst), hendian,
          resolve_eq he, hdone]
        use rfl
        apply readsAs_units (t := { t with headerDone := true }) rfl rfl he hown

theorem simulates (order : Endian) (hstateless : flags.stateless = false) :
  Simulates (machine order flags endian) (fun t l => convertToUnicode order l t endian)
    (ReadsAs flags endian)
  where
  output hrel l := (convertToUnicode_reads order hstateless hrel l).1
  next hrel l := (convertToUnicode_reads order hstateless hrel l).2

/-! ### Successive calls -/

/-- What a conversion yields: its output, and the number of the symbols that wait. -/
def outcome {α β : Type} (result : List β × State α) : List β × ℕ :=
  (result.1, result.2.data.length)

/-- Successive calls of `convertToUnicode` on a new state. -/
def convertChunks (order : Endian) (flags : Flags) (endian : DataEndianness)
    (chunks : List QByteArray) : QString × State UInt8 :=
  runCalls (fun t l => convertToUnicode order l t endian) (.new flags) chunks

/-- Calls that read as the machine does yield what one call yields that does. -/
theorem outcome_runCalls (order : Endian) (hstateless : flags.stateless = false)
    (h : ReadsAs flags endian s t) (chunks : List QByteArray) :
  outcome (runCalls (fun t l => convertToUnicode order l t endian) t chunks)
    = outcome (convertToUnicode order chunks.flatten t endian)
  := by
  obtain ⟨hchunks, -, hpending, -⟩ := (simulates order hstateless).runCalls h chunks
  obtain ⟨hwhole, -, hdata, -⟩ := convertToUnicode_reads order hstateless h
    chunks.flatten
  rw [outcome, outcome, hchunks, hwhole, hpending, hdata]

theorem readsAs_new (h : ¬(endian = .detectEndianness ∧ flags.convertInitialBom = true)) :
  ReadsAs flags endian (none, []) (.new flags)
  := by
  refine ⟨rfl, rfl, Nat.zero_lt_two, rfl, rfl, ?_⟩
  intro hdetect hinitial
  exact absurd ⟨hdetect, hinitial⟩ h

/-- The byte order mark of the other byte order. -/
def otherMark : Endian → QByteArray
  | .bigEndian => [0xff, 0xfe]
  | .littleEndian => [0xfe, 0xff]

theorem ofCellRow_toNat (cell row : UInt8) :
  (ofCellRow cell row).toNat = row.toNat * 0x100 + cell.toNat
  := by
  have hcell : cell.toNat < 2 ^ 8 := cell.toNat_lt
  have hrow := row.toNat_lt
  rw [ofCellRow, UInt16.toNat_or, UInt16.toNat_shiftLeft, UInt8.toNat_toUInt16,
    UInt8.toNat_toUInt16]
  change row.toNat <<< 8 % 2 ^ 16 ||| cell.toNat = _
  rw [Nat.mod_eq_of_lt (by rw [Nat.shiftLeft_eq]; omega), ← Nat.shiftLeft_add_eq_or_of_lt hcell,
    Nat.shiftLeft_eq]

theorem ofCellRow_inj_iff (a b c d : UInt8) :
  ofCellRow a b = ofCellRow c d ↔ [a, b] = [c, d]
  := by
  constructor
  · intro h
    have htoNat := congrArg UInt16.toNat h
    have ha := a.toNat_lt
    have hc := c.toNat_lt
    rw [ofCellRow_toNat, ofCellRow_toNat] at htoNat
    have hcell : a = c := UInt8.toNat_inj.mp (by omega)
    have hrow : b = d := UInt8.toNat_inj.mp (by omega)
    rw [hcell, hrow]
  · intro h
    cases h
    rfl

/-- Detection yields another order than the host's only behind the mark of that order. -/
theorem resolve_host_iff (order : Endian) (a b : UInt8) :
  resolve order .detectEndianness [a, b] = order.host ↔ [a, b] ≠ otherMark order
  := by
  have hbig : ofCellRow a b = 0xfffe ↔ [a, b] = [0xfe, 0xff] := ofCellRow_inj_iff a b 0xfe 0xff
  have hlittle : ofCellRow a b = 0xfeff ↔ [a, b] = [0xff, 0xfe] := ofCellRow_inj_iff a b 0xff 0xfe
  rw [resolve, if_pos rfl, detect]
  simp only [hbig, hlittle]
  cases order with
  | bigEndian =>
    rw [otherMark, Endian.host]
    split
    next h => simp [h]
    next =>
      split
      next h => simp [h]
      next h => simp [h]
  | littleEndian =>
    rw [otherMark, Endian.host]
    split
    next h => simp [h]
    next h =>
      split
      next => simp [h]
      next => simp [h]

/-- The first octet comes alone. -/
def FirstAlone (chunks : List QByteArray) : Prop :=
  ∃ b rest, chunks.dropWhile List.isEmpty = [b] :: rest

theorem convertToUnicode_host (order : Endian) (hstateless : t.flags.stateless = false)
    (hl : 2 ≤ l.length) (hdone : t.bomDone = true) (hdata : t.data = [])
    (h : t.endian = .detectEndianness) :
  convertToUnicode order l t .detectEndianness
    = convertToUnicode order l { t with endian := order.host } .detectEndianness
  := by
  obtain ⟨a, b, rest, rfl⟩ : ∃ a b rest, l = a :: b :: rest := by
    rcases l with _ | ⟨a, _ | ⟨b, rest⟩⟩
    · cases hl
    · simp at hl
    · exact ⟨a, b, rest, rfl⟩
  have hendianness : State.endianness { t with endian := order.host } .detectEndianness
      = order.host := if_pos rfl
  rw [convertToUnicode_next hstateless rfl hdone hdata,
    convertToUnicode_next (t := { t with endian := order.host }) hstateless rfl hdone hdata,
    endianness_of_detect h, if_pos rfl, hendianness, ite_self]

theorem bomDone_new (hinitial : flags.convertInitialBom = true) :
  (State.new flags : State UInt8).bomDone = true
  := by
  rw [State.bomDone, State.new, hinitial, Bool.or_true]

/-- A first call with more than one octet takes the order of the host, as one call does. -/
theorem outcome_host (order : Endian) {chunk : QByteArray} (hstateless : flags.stateless = false)
    (hinitial : flags.convertInitialBom = true) (h : 2 ≤ chunk.length) (chunks : List QByteArray) :
  outcome (convertChunks order flags .detectEndianness (chunk :: chunks))
    = outcome (convertToUnicode order (chunk :: chunks).flatten (.new flags) .detectEndianness)
  := by
  have hdone := bomDone_new hinitial
  have hhost : ReadsAs flags .detectEndianness (some order.host, [])
      { State.new flags with endian := order.host } := by
    refine ⟨rfl, rfl, Nat.zero_lt_two, ?_, hdone, rfl⟩
    cases order <;> exact DataEndianness.noConfusion
  have hruns := outcome_runCalls order hstateless hhost (chunk :: chunks)
  have hwhole : 2 ≤ (chunk :: chunks).flatten.length := by
    rw [List.flatten_cons, List.length_append]
    omega
  rw [runCalls, ← convertToUnicode_host order hstateless h hdone rfl rfl,
    ← convertToUnicode_host order hstateless hwhole hdone rfl rfl] at hruns
  rw [convertChunks, runCalls, hruns]

theorem unit_resolve_iff (order : Endian) (b c : UInt8) :
  unit (resolve order .detectEndianness [b, c]) b c = unit order.host b c
    ↔ resolve order .detectEndianness [b, c] = order.host
  := by
  constructor
  · intro h
    by_contra hother
    have hmark := not_not.mp ((resolve_host_iff order b c).not.mp hother)
    cases order with
    | bigEndian =>
      cases hmark
      exact absurd h (by decide)
    | littleEndian =>
      cases hmark
      exact absurd h (by decide)
  · intro h
    rw [h]

/-- The state after a first octet that comes alone. -/
def waiting (flags : Flags) (b : UInt8) : State UInt8 where
  flags := flags
  headerDone := false
  endian := .detectEndianness
  data := [b]

/-- A first octet that comes alone makes the second call detect the order. -/
theorem outcome_alone_iff (hstateless : flags.stateless = false)
    (hinitial : flags.convertInitialBom = true) (b : UInt8) (chunks : List QByteArray) :
  outcome (convertChunks order flags .detectEndianness ([b] :: chunks))
      = outcome (convertToUnicode order ([b] :: chunks).flatten (.new flags) .detectEndianness)
    ↔ ¬otherMark order <+: ([b] :: chunks).flatten
  := by
  have halone : convertToUnicode order [b] (.new flags) .detectEndianness
      = ([], waiting flags b) :=
    convertToUnicode_short (t := .new flags) (l := [b]) Nat.one_lt_two
  have hreads : ReadsAs flags .detectEndianness (none, [b]) (waiting flags b) := by
    refine ⟨rfl, rfl, Nat.one_lt_two, rfl, rfl, ?_⟩
    intro _ _ h
    cases h
  have hruns := outcome_runCalls order hstateless hreads chunks
  have hchunks : outcome (convertChunks order flags .detectEndianness ([b] :: chunks))
      = outcome (convertToUnicode order chunks.flatten (waiting flags b) .detectEndianness) := by
    rw [← hruns, convertChunks, runCalls, halone, List.nil_append]
  rw [hchunks, List.flatten_cons, List.singleton_append]
  rcases hrest : chunks.flatten with _ | ⟨c, rest⟩
  · have hone : convertToUnicode order [b] (.new flags) .detectEndianness
        = convertToUnicode order [] (waiting flags b) .detectEndianness :=
      halone.trans
        (convertToUnicode_short (t := waiting flags b) (l := [])
          Nat.one_lt_two).symm
    rw [hone, eq_self_iff_true, true_iff]
    cases order <;> simp [otherMark]
  · have hdone := bomDone_new hinitial
    have hdone' : (waiting flags b).bomDone = true :=
      hdone
    have hprefix : otherMark order <+: b :: c :: rest ↔ [b, c] = otherMark order := by
      cases order with
      | bigEndian => simp [otherMark, eq_comm]
      | littleEndian => simp [otherMark, eq_comm]
    have hresolve := (resolve_host_iff order b c).not
    rw [not_not] at hresolve
    rw [convertToUnicode_first hstateless rfl (.inr (List.cons_ne_nil b [])),
      convertToUnicode_next hstateless rfl hdone rfl, endianness_of_detect rfl,
      endianness_of_detect rfl, if_pos rfl, hdone', hprefix, ← hresolve, not_not]
    constructor
    · intro h
      have hunits := congrArg Prod.fst h
      rw [outcome, outcome, units, Bool.true_or, if_pos rfl] at hunits
      apply (unit_resolve_iff order b c).mp (List.cons.inj hunits).1
    · intro h
      rw [h, Bool.true_or, if_pos rfl, units]
      rfl

/-- Successive calls yield what one call yields, unless the first octet comes alone in front of the
other half of the byte order mark that is not the host's, and the mark is text. -/
theorem convertToUnicode_chunks_iff (hstateless : flags.stateless = false)
    (chunks : List QByteArray) :
  outcome (convertChunks order flags endian chunks)
      = outcome (convertToUnicode order chunks.flatten (.new flags) endian)
    ↔ ¬(endian = .detectEndianness ∧ flags.convertInitialBom = true ∧ FirstAlone chunks
      ∧ otherMark order <+: chunks.flatten)
  := by
  rcases em (endian = .detectEndianness ∧ flags.convertInitialBom = true) with
    ⟨rfl, hinitial⟩ | hknown
  · rw [eq_self_iff_true, true_and, hinitial, eq_self_iff_true, true_and]
    induction chunks with
    | nil =>
      have hnil : ¬FirstAlone [] := by
        rintro ⟨b, rest, h⟩
        cases h
      rw [iff_true_right (fun h => hnil h.1)]
      rfl
    | cons chunk chunks ih =>
      rcases chunk with _ | ⟨b, _ | ⟨c, chunk⟩⟩
      · have hempty : convertToUnicode order [] (.new flags) .detectEndianness
            = ([], State.new flags) :=
          convertToUnicode_short (t := .new flags) (l := []) Nat.zero_lt_two
        have hchunks : convertChunks order flags .detectEndianness ([] :: chunks)
            = convertChunks order flags .detectEndianness chunks := by
          rw [convertChunks, runCalls, hempty]
          rfl
        rw [hchunks]
        apply ih
      · have halone : FirstAlone ([b] :: chunks) := ⟨b, chunks, rfl⟩
        rw [outcome_alone_iff hstateless hinitial, and_iff_right halone]
      · have hmore : ¬FirstAlone ((b :: c :: chunk) :: chunks) := by
          rintro ⟨d, rest, h⟩
          cases h
        rw [iff_true_right (fun h => hmore h.1)]
        apply outcome_host order hstateless hinitial
        simp
  · rw [iff_true_right (fun h => hknown ⟨h.1, h.2.1⟩)]
    apply outcome_runCalls order hstateless (readsAs_new hknown)

end QUtf16
