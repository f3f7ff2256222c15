import Mathlib.Algebra.Order.Ring.Nat
import Mathlib.Data.List.Basic
import Mathlib.Tactic.Ring

/-!
# Prefix codes of words

A word of `w` bits is a number below `2 ^ w`, and its first `ℓ` bits are the number `top w ℓ x`.
A symbol has a code: the first `len a` bits of the word `code a`, whose other bits are 0.  In a
complete prefix code every word begins with the code of exactly one symbol.
-/

namespace PrefixCode

/-! ### Words -/

/-- The first bits of a word. -/
def top (w ℓ x : ℕ) : ℕ :=
  x / 2 ^ (w - ℓ)

/-- The bits of a word behind the first `p`, as many as `k`. -/
def index (w p k x : ℕ) : ℕ :=
  top w (p + k) x % 2 ^ k

variable {w ℓ m p k x y : ℕ}

theorem top_zero (h : x < 2 ^ w) :
  top w 0 x = 0
  := Nat.div_eq_of_lt h

theorem top_of_le (h : ℓ ≤ m) (hm : m ≤ w) :
  top w ℓ x = top w m x / 2 ^ (m - ℓ)
  := by
  rw [top, top, Nat.div_div_eq_div_mul, ← Nat.pow_add]
  congr 2
  omega

theorem top_congr (h : ℓ ≤ m) (hm : m ≤ w) (htop : top w m x = top w m y) :
  top w ℓ x = top w ℓ y
  := by
  rw [top_of_le h hm, top_of_le h hm, htop]

theorem index_lt (w p k x : ℕ) :
  index w p k x < 2 ^ k
  := Nat.mod_lt _ (Nat.two_pow_pos k)

/-- The first bits of a word, and those behind them. -/
theorem top_add (h : p + k ≤ w) :
  top w (p + k) x = top w p x * 2 ^ k + index w p k x
  := by
  have hp : top w p x = top w (p + k) x / 2 ^ k := by
    rw [top_of_le (Nat.le_add_right p k) h, Nat.add_sub_cancel_left]
  rw [hp, index, Nat.mul_comm, Nat.div_add_mod]

theorem top_add_eq_iff (h : p + k ≤ w) :
  top w (p + k) x = top w (p + k) y ↔ top w p x = top w p y ∧ index w p k x = index w p k y
  := by
  constructor
  · intro htop
    constructor
    · apply top_congr (Nat.le_add_right p k) h htop
    · rw [index, index, htop]
  · rintro ⟨htop, hindex⟩
    rw [top_add h, top_add h, htop, hindex]

theorem top_lt (h : ℓ ≤ w) (hx : x < 2 ^ w) :
  top w ℓ x < 2 ^ ℓ
  := by
  rw [top, Nat.div_lt_iff_lt_mul (Nat.two_pow_pos _), ← Nat.pow_add, Nat.add_sub_cancel' h]
  exact hx

/-- There is a word for any bits behind the first bits of a word. -/
theorem exists_index (h : p + k ≤ w) (hy : y < 2 ^ w) {i : ℕ} (hi : i < 2 ^ k) :
  ∃ x < 2 ^ w, top w p x = top w p y ∧ index w p k x = i
  := by
  have hp := top_lt (Nat.le_trans (Nat.le_add_right p k) h) hy
  have htop : top w (p + k) ((top w p y * 2 ^ k + i) * 2 ^ (w - (p + k)))
      = top w p y * 2 ^ k + i := by
    rw [top, Nat.mul_div_cancel _ (Nat.two_pow_pos _)]
  refine ⟨(top w p y * 2 ^ k + i) * 2 ^ (w - (p + k)), ?_, ?_, ?_⟩
  · calc (top w p y * 2 ^ k + i) * 2 ^ (w - (p + k))
        < (2 ^ p * 2 ^ k) * 2 ^ (w - (p + k)) := by
          apply Nat.mul_lt_mul_of_pos_right _ (Nat.two_pow_pos _)
          calc top w p y * 2 ^ k + i < (top w p y + 1) * 2 ^ k := by rw [Nat.succ_mul]; omega
            _ ≤ 2 ^ p * 2 ^ k := Nat.mul_le_mul_right _ hp
      _ = 2 ^ w := by rw [← Nat.pow_add, ← Nat.pow_add, Nat.add_sub_cancel' h]
  · rw [top_of_le (Nat.le_add_right p k) h, htop, Nat.add_sub_cancel_left,
      Nat.mul_comm, Nat.mul_add_div (Nat.two_pow_pos k), Nat.div_eq_of_lt hi, Nat.add_zero]
  · rw [index, htop, Nat.mul_comm, Nat.mul_add_mod, Nat.mod_eq_of_lt hi]

/-- The bits of a word behind the first ones, as they are cut out by shifts. -/
theorem shift_eq_index (h : p + k ≤ w) :
  ((x <<< p) % 2 ^ w) >>> (w - k) = index w p k x
  := by
  have hw : 2 ^ w = 2 ^ (w - (p + k)) * 2 ^ (p + k) := by
    rw [← Nat.pow_add, Nat.sub_add_cancel h]
  have hwk : 2 ^ (w - k) = 2 ^ (w - (p + k)) * 2 ^ p := by
    rw [← Nat.pow_add]
    congr 1
    omega
  have hshift : (x <<< p) % 2 ^ w = (x % 2 ^ (w - p)) * 2 ^ p := by
    rw [Nat.shiftLeft_eq, ← Nat.mul_mod_mul_right, ← Nat.pow_add, Nat.sub_add_cancel (by omega)]
  have hwp : 2 ^ (w - p) = 2 ^ (w - (p + k)) * 2 ^ k := by
    rw [← Nat.pow_add]
    congr 1
    omega
  rw [hshift, Nat.shiftRight_eq_div_pow, hwk, Nat.mul_div_mul_right _ _ (Nat.two_pow_pos p), hwp,
    Nat.mod_mul_right_div_self, index, top]

/-! ### Complete prefix codes -/

variable {α : Type*}

/-- A word begins with the code of a symbol. -/
def Begins (w : ℕ) (code len : α → ℕ) (x : ℕ) (a : α) : Prop :=
  top w (len a) x = top w (len a) (code a)

/-- The codes of the symbols of a list are complete, and none begins with another one. -/
structure Complete (w : ℕ) (code len : α → ℕ) (symbols : List α) : Prop where
  len_pos : ∀ a ∈ symbols, 0 < len a
  len_le : ∀ a ∈ symbols, len a ≤ w
  code_lt : ∀ a ∈ symbols, code a < 2 ^ w
  aligned : ∀ a ∈ symbols, 2 ^ (w - len a) ∣ code a
  begins : ∀ x < 2 ^ w, ∃ a ∈ symbols, Begins w code len x a
  unique : ∀ x, ∀ a ∈ symbols, ∀ b ∈ symbols,
    Begins w code len x a → Begins w code len x b → a = b

variable {code len : α → ℕ} {symbols : List α}

/-- The order of the symbols does not matter. -/
theorem Complete.of_mem_iff {symbols' : List α} (h : Complete w code len symbols)
    (hmem : ∀ a, a ∈ symbols' ↔ a ∈ symbols) :
  Complete w code len symbols'
  where
  len_pos a ha := h.len_pos a ((hmem a).mp ha)
  len_le a ha := h.len_le a ((hmem a).mp ha)
  code_lt a ha := h.code_lt a ((hmem a).mp ha)
  aligned a ha := h.aligned a ((hmem a).mp ha)
  begins x hx := by
    obtain ⟨a, ha, hbegins⟩ := h.begins x hx
    exact ⟨a, (hmem a).mpr ha, hbegins⟩
  unique x a ha b hb := h.unique x a ((hmem a).mp ha) b ((hmem b).mp hb)

/-- The words that begin with a code lie between it and the next one. -/
theorem begins_iff {a : α} (h : 2 ^ (w - len a) ∣ code a) :
  Begins w code len x a ↔ code a ≤ x ∧ x < code a + 2 ^ (w - len a)
  := by
  obtain ⟨c, hc⟩ := h
  have hpos : 0 < 2 ^ (w - len a) := Nat.two_pow_pos _
  rw [Begins, top, top, hc, Nat.mul_div_cancel_left _ hpos, Nat.div_eq_iff hpos]
  have hcomm : c * 2 ^ (w - len a) = 2 ^ (w - len a) * c := Nat.mul_comm _ _
  constructor <;> rintro ⟨hlow, hhigh⟩ <;> constructor <;> omega

/-- The words with the first bits of a code begin with it where the bits behind are those of the
code, or up to the next one. -/
theorem begins_iff_index {a : α} (hlow : p < len a) (hhigh : len a ≤ p + k) (h : p + k ≤ w)
    (haligned : 2 ^ (w - len a) ∣ code a) (htop : top w p x = top w p (code a)) :
  (Begins w code len x a ↔ index w p k (code a) ≤ index w p k x
      ∧ index w p k x < index w p k (code a) + 2 ^ (p + k - len a))
    ∧ index w p k (code a) + 2 ^ (p + k - len a) ≤ 2 ^ k
  := by
  have hpos : 0 < 2 ^ (p + k - len a) := Nat.two_pow_pos _
  obtain ⟨c, hc⟩ := haligned
  have hw : 2 ^ (w - len a) = 2 ^ (w - (p + k)) * 2 ^ (p + k - len a) := by
    rw [← Nat.pow_add]
    congr 1
    omega
  have hk : 2 ^ k = 2 ^ (len a - p) * 2 ^ (p + k - len a) := by
    rw [← Nat.pow_add]
    congr 1
    omega
  have hcode : top w (p + k) (code a) = 2 ^ (p + k - len a) * c := by
    rw [top, hc, hw, Nat.mul_assoc, Nat.mul_div_cancel_left _ (Nat.two_pow_pos _)]
  have hindex : index w p k (code a) = 2 ^ (p + k - len a) * (c % 2 ^ (len a - p)) := by
    rw [index, hcode, hk, Nat.mul_comm (2 ^ (len a - p)), Nat.mul_mod_mul_left]
  have hsplit := top_add (x := x) h
  have hsplit' := top_add (x := code a) h
  rw [hcode] at hsplit'
  constructor
  · rw [Begins, top_of_le hhigh h, top_of_le hhigh h, hcode, Nat.mul_div_cancel_left _ hpos,
      Nat.div_eq_iff hpos, hsplit, htop]
    have hcomm : c * 2 ^ (p + k - len a) = 2 ^ (p + k - len a) * c := Nat.mul_comm _ _
    constructor <;> rintro ⟨hfrom, hto⟩ <;> constructor <;> omega
  · have hmod : c % 2 ^ (len a - p) < 2 ^ (len a - p) := Nat.mod_lt _ (Nat.two_pow_pos _)
    rw [hindex, hk, ← Nat.mul_succ, Nat.mul_comm]
    exact Nat.mul_le_mul_right _ hmod

/-- The symbols of a list have their codes one behind the other, from `x` to the last word. -/
inductive Tiles (w : ℕ) (code len : α → ℕ) : ℕ → List α → Prop where
  | nil : Tiles w code len (2 ^ w) []
  | cons {a : α} {symbols : List α} (h_pos : 0 < len a) (h_le : len a ≤ w)
    (h_dvd : 2 ^ (w - len a) ∣ code a)
    (h_rest : Tiles w code len (code a + 2 ^ (w - len a)) symbols) :
    Tiles w code len (code a) (a :: symbols)

theorem tiles_nil_iff {x : ℕ} :
  Tiles w code len x [] ↔ x = 2 ^ w
  := by
  constructor
  · rintro ⟨⟩
    rfl
  · rintro rfl
    exact .nil

theorem tiles_cons_iff {x : ℕ} {a : α} :
  Tiles w code len x (a :: symbols) ↔ code a = x ∧ 0 < len a ∧ len a ≤ w
    ∧ 2 ^ (w - len a) ∣ code a ∧ Tiles w code len (code a + 2 ^ (w - len a)) symbols
  := by
  constructor
  · intro h
    cases h with
    | cons hpos hle hdvd hrest => exact ⟨rfl, hpos, hle, hdvd, hrest⟩
  · rintro ⟨rfl, hpos, hle, hdvd, hrest⟩
    exact .cons hpos hle hdvd hrest

instance decidableTiles (w : ℕ) (code len : α → ℕ) :
    ∀ (x : ℕ) (symbols : List α), Decidable (Tiles w code len x symbols)
  | x, [] => decidable_of_iff (x = 2 ^ w) tiles_nil_iff.symm
  | x, a :: symbols =>
    have := decidableTiles w code len (code a + 2 ^ (w - len a)) symbols
    decidable_of_iff (code a = x ∧ 0 < len a ∧ len a ≤ w ∧ 2 ^ (w - len a) ∣ code a
      ∧ Tiles w code len (code a + 2 ^ (w - len a)) symbols) tiles_cons_iff.symm

theorem Tiles.le {x : ℕ} (h : Tiles w code len x symbols) :
  x ≤ 2 ^ w
  := by
  induction h with
  | nil => exact Nat.le_refl _
  | cons _ _ _ _ ih => exact Nat.le_trans (Nat.le_add_right _ _) ih

/-- Codes one behind the other are complete from the first one on. -/
theorem Tiles.complete_from {x : ℕ} (h : Tiles w code len x symbols) :
  (∀ a ∈ symbols, 0 < len a ∧ len a ≤ w ∧ x ≤ code a ∧ code a < 2 ^ w
      ∧ 2 ^ (w - len a) ∣ code a)
    ∧ (∀ y, x ≤ y → y < 2 ^ w → ∃ a ∈ symbols, Begins w code len y a)
    ∧ ∀ y, ∀ a ∈ symbols, ∀ b ∈ symbols,
      Begins w code len y a → Begins w code len y b → a = b
  := by
  induction h with
  | nil =>
    refine ⟨(fun a ha => nomatch ha), ?_, (fun _ a ha => nomatch ha)⟩
    intro y hlow hhigh
    exact absurd hhigh (Nat.not_lt_of_le hlow)
  | @cons a symbols hpos hle hdvd hrest ih =>
    obtain ⟨hcodes, hbegins, hunique⟩ := ih
    have hsize : 0 < 2 ^ (w - len a) := Nat.two_pow_pos _
    have hend := hrest.le
    refine ⟨?_, ?_, ?_⟩
    · intro b hb
      rcases List.mem_cons.mp hb with rfl | hb
      · exact ⟨hpos, hle, Nat.le_refl _, by omega, hdvd⟩
      · obtain ⟨hpos', hle', hlow, hhigh, hdvd'⟩ := hcodes b hb
        exact ⟨hpos', hle', by omega, hhigh, hdvd'⟩
    · intro y hlow hhigh
      rcases Nat.lt_or_ge y (code a + 2 ^ (w - len a)) with hy | hy
      · exact ⟨a, List.mem_cons_self, (begins_iff hdvd).mpr ⟨hlow, hy⟩⟩
      · obtain ⟨b, hb, hbegins⟩ := hbegins y hy hhigh
        exact ⟨b, List.mem_cons_of_mem a hb, hbegins⟩
    · have hapart : ∀ y, ∀ b ∈ symbols, Begins w code len y a → ¬ Begins w code len y b := by
        intro y b hb hya hyb
        obtain ⟨-, -, hlow, -, hdvd'⟩ := hcodes b hb
        have hy := ((begins_iff hdvd).mp hya).2
        have hy' := ((begins_iff hdvd').mp hyb).1
        omega
      intro y b hb c hc hyb hyc
      rcases List.mem_cons.mp hb with rfl | hb'
      · rcases List.mem_cons.mp hc with rfl | hc'
        · rfl
        · exact absurd hyc (hapart y c hc' hyb)
      · rcases List.mem_cons.mp hc with rfl | hc'
        · exact absurd hyb (hapart y b hb' hyc)
        · exact hunique y b hb' c hc' hyb hyc

theorem Tiles.complete (h : Tiles w code len 0 symbols) :
  Complete w code len symbols
  := by
  obtain ⟨hcodes, hbegins, hunique⟩ := h.complete_from
  exact ⟨fun a ha => (hcodes a ha).1, fun a ha => (hcodes a ha).2.1,
    fun a ha => (hcodes a ha).2.2.2.1, fun a ha => (hcodes a ha).2.2.2.2,
    fun x hx => hbegins x (Nat.zero_le x) hx, hunique⟩

end PrefixCode
