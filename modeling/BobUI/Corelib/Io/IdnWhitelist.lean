import BobUI.Corelib.Text.Strings
import Mathlib.Data.Int.Notation
import Mathlib.Data.List.GetD
import Mathlib.Data.List.Infix

/-!
# The whitelist of top-level domains

`qt_is_idn_enabled` of `qurlidna.cpp`.  It looks for the text after the last dot by a search that
ends at the last entry that is not greater, or at the first entry, and then tests only that the
text has been used up: a text that the first entry begins with is taken for an entry.
-/

namespace QUrlIdna

/-! ### The function -/

/-- What a `qOffsetStringArray` of sorted strings holds.  Its offsets, and so the number of its
entries, are values of `int`. -/
structure OffsetStringArray where
  entries : List QByteArray
  sorted : entries.Pairwise (· < ·)
  not_empty : entries ≠ []
  null_terminated : ∀ e ∈ entries, 0 ∉ e
  length_lt : ∀ e ∈ entries, e.length < 2 ^ 31

namespace OffsetStringArray

def count (list : OffsetStringArray) : ℕ :=
  list.entries.length

def at_ (list : OffsetStringArray) (index : ℕ) : QByteArray :=
  list.entries.getD index []

end OffsetStringArray

def dot : UInt16 := 0x2e

/-- The value of a `qsizetype` as an `int`. -/
def toInt (size : ℕ) : ℤ :=
  Int.bmod size (2 ^ 32)

/-- `lessThan`, where `l` code units are left before the end `e`. -/
def lessThan : QString → ℤ → QByteArray → Bool
  | _, _, [] => false
  | uc, l, ch :: c =>
    if l = 0 then true
    else if uc.head? = some ch.toUInt16 then lessThan uc.tail (l - 1) c
    else uc.head?.any (· < ch.toUInt16)

def equal : QString → ℤ → QByteArray → Bool
  | _, l, [] => l = 0
  | a, l, ch :: b =>
    if l = 0 ∨ a.head? = some 0 then l = 0
    else if a.head? ≠ some ch.toUInt16 then false
    else equal a.tail (l - 1) b

/-- The loop of `qt_is_idn_enabled`, where `before i` says that the text is less than entry `i`. -/
def search (before : ℕ → Bool) (l r : ℕ) (h : l ≤ r) : ℕ :=
  let i := (l + r + 1) / 2
  if h_ne : r ≠ l then
    if before i then search before l (i - 1) (by omega) else search before i r (by omega)
  else i
termination_by r - l
decreasing_by all_goals omega

/-- `qt_is_idn_enabled` with the list of the user, if there is one. -/
def qt_is_idn_enabled (user_idn_whitelist : Option (List QString))
    (idn_whitelist : OffsetStringArray) (aceDomain : QString) : Bool :=
  match aceDomain.lastIndexOf dot (aceDomain.length - 1) with
  | none => false
  | some idx =>
    let tldString := aceDomain.drop (idx + 1)
    let len := toInt tldString.length
    match user_idn_whitelist with
    | some list => list.contains tldString
    | none =>
      let i := search (fun i => lessThan tldString len (idn_whitelist.at_ i)) 0
        (idn_whitelist.count - 1) (Nat.zero_le _)
      equal tldString len (idn_whitelist.at_ i)

/-! ### Comparisons -/

/-- The characters of a Latin-1 string. -/
def fromLatin1 (bytes : QByteArray) : QString :=
  bytes.map UInt8.toUInt16

@[simp]
theorem fromLatin1_nil :
  fromLatin1 [] = []
  := rfl

@[simp]
theorem fromLatin1_cons (b : UInt8) (bytes : QByteArray) :
  fromLatin1 (b :: bytes) = b.toUInt16 :: fromLatin1 bytes
  := rfl

@[simp]
theorem length_fromLatin1 (bytes : QByteArray) :
  (fromLatin1 bytes).length = bytes.length
  := List.length_map _

theorem toUInt16_inj {b b' : UInt8} :
  b.toUInt16 = b'.toUInt16 ↔ b = b'
  := by
  rw [← UInt16.toNat_inj, ← UInt8.toNat_inj, UInt8.toNat_toUInt16, UInt8.toNat_toUInt16]

theorem fromLatin1_injective {bytes bytes' : QByteArray}
    (h : fromLatin1 bytes = fromLatin1 bytes') :
  bytes = bytes'
  := by
  induction bytes generalizing bytes' with
  | nil =>
    cases bytes' with
    | nil => rfl
    | cons b bytes' => cases h
  | cons b bytes ih =>
    cases bytes' with
    | nil => cases h
    | cons b' bytes' =>
      rw [fromLatin1_cons, fromLatin1_cons, List.cons.injEq] at h
      rw [toUInt16_inj.mp h.1, ih h.2]

theorem fromLatin1_lt {bytes bytes' : QByteArray} (h : bytes < bytes') :
  fromLatin1 bytes < fromLatin1 bytes'
  := by
  induction bytes generalizing bytes' with
  | nil =>
    cases bytes' with
    | nil => exact absurd h (List.lt_irrefl _)
    | cons b bytes' => apply List.nil_lt_cons
  | cons b bytes ih =>
    cases bytes' with
    | nil => exact absurd h (List.not_lt_nil _)
    | cons b' bytes' =>
      rw [fromLatin1_cons, fromLatin1_cons, List.cons_lt_cons_iff, toUInt16_inj]
      rcases List.cons_lt_cons_iff.mp h with hlt | ⟨heq, hlt⟩
      · left
        rw [UInt16.lt_iff_toNat_lt, UInt8.toNat_toUInt16, UInt8.toNat_toUInt16]
        apply UInt8.lt_iff_toNat_lt.mp hlt
      · exact Or.inr ⟨heq, ih hlt⟩

/-- `lessThan` compares the first `n` code units of a text in the order of the lists. -/
theorem lessThan_iff (c : QByteArray) {uc : QString} {n : ℕ} (h : n ≤ uc.length) :
  lessThan uc n c = true ↔ uc.take n < fromLatin1 c
  := by
  induction c generalizing uc n with
  | nil =>
    rw [lessThan, fromLatin1_nil]
    exact ⟨Bool.noConfusion, fun hlt => absurd hlt (List.not_lt_nil _)⟩
  | cons ch c ih =>
    cases n with
    | zero =>
      rw [lessThan, if_pos Int.natCast_zero, fromLatin1_cons, List.take_zero]
      exact ⟨fun _ => List.nil_lt_cons _ _, fun _ => rfl⟩
    | succ n =>
      cases uc with
      | nil => cases h
      | cons u uc =>
        have hstep : ((n + 1 : ℕ) : ℤ) - 1 = (n : ℕ) := by omega
        rw [lessThan, if_neg (by omega), List.head?_cons, List.tail_cons, hstep,
          List.take_succ_cons, fromLatin1_cons, List.cons_lt_cons_iff]
        by_cases heq : u = ch.toUInt16
        · rw [if_pos (congrArg some heq), ih (Nat.le_of_succ_le_succ h)]
          constructor
          · intro hlt
            exact Or.inr ⟨heq, hlt⟩
          · rintro (hlt | ⟨-, hlt⟩)
            · rw [heq] at hlt
              exact absurd hlt (UInt16.lt_irrefl _)
            · apply hlt
        · rw [if_neg (mt Option.some_inj.mp heq), Option.any_some, decide_eq_true_iff]
          constructor
          · apply Or.inl
          · rintro (hlt | ⟨heq', -⟩)
            · apply hlt
            · exact absurd heq' heq

/-- `equal` says that an entry begins with the first `n` code units of a text. -/
theorem equal_iff {b : QByteArray} (hnull : 0 ∉ b) {a : QString} {n : ℕ} (h : n ≤ a.length) :
  equal a n b = true ↔ a.take n <+: fromLatin1 b
  := by
  induction b generalizing a n with
  | nil =>
    rw [equal, fromLatin1_nil, List.prefix_nil, List.take_eq_nil_iff, decide_eq_true_iff]
    constructor
    · intro hzero
      exact Or.inl (by omega)
    · rintro (hzero | hnil)
      · omega
      · subst hnil
        rw [List.length_nil] at h
        omega
  | cons ch b ih =>
    rw [List.mem_cons, not_or] at hnull
    cases n with
    | zero =>
      rw [equal, if_pos (Or.inl Int.natCast_zero), List.take_zero]
      exact ⟨fun _ => List.nil_prefix, fun _ => rfl⟩
    | succ n =>
      cases a with
      | nil => cases h
      | cons u a =>
        have hstep : ((n + 1 : ℕ) : ℤ) - 1 = (n : ℕ) := by omega
        have hne : ((n + 1 : ℕ) : ℤ) ≠ 0 := by omega
        have hzero : ch.toUInt16 ≠ 0 := by
          intro heq
          apply hnull.1 (toUInt16_inj.mp heq).symm
        rw [equal, List.head?_cons, List.tail_cons, hstep, List.take_succ_cons,
          fromLatin1_cons, List.cons_prefix_cons]
        by_cases heq : u = ch.toUInt16
        · rw [if_neg, if_neg (not_not.mpr (congrArg some heq)),
            ih hnull.2 (Nat.le_of_succ_le_succ h)]
          · exact ⟨fun hbegin => ⟨heq, hbegin⟩, And.right⟩
          · rintro (hzero' | hzero')
            · apply hne hzero'
            · rw [heq] at hzero'
              apply hzero (Option.some_inj.mp hzero')
        · constructor
          · intro htrue
            split at htrue
            · rw [decide_eq_true_iff] at htrue
              exact absurd htrue hne
            · rw [if_pos (by rw [Ne, Option.some_inj]; exact heq)] at htrue
              cases htrue
          · rintro ⟨heq', -⟩
            exact absurd heq' heq

theorem equal_neg (b : QByteArray) (a : QString) {l : ℤ} (h : l < 0) :
  equal a l b = false
  := by
  induction b generalizing a l with
  | nil =>
    rw [equal, decide_eq_false_iff_not]
    omega
  | cons ch b ih =>
    rw [equal]
    split
    · rw [decide_eq_false_iff_not]
      omega
    · split
      · rfl
      · apply ih
        omega

/-! ### The search -/

/-- The search ends at a place where `before` turns from false to true, or at an end of the
range. -/
theorem search_spec (before : ℕ → Bool) (l r : ℕ) (h : l ≤ r) :
  (l ≤ search before l r h ∧ search before l r h ≤ r)
    ∧ (search before l r h = l ∨ before (search before l r h) = false)
    ∧ (search before l r h = r ∨ before (search before l r h + 1) = true)
  := by
  induction l, r, h using search.induct before with
  | case1 l r h i hne hbefore ih =>
    have heq : search before l r h = search before l (i - 1) (by omega) := by
      rw [search.eq_def, dif_pos hne]
      exact if_pos hbefore
    rw [heq]
    obtain ⟨⟨hle, hlt⟩, hfalse, htrue⟩ := ih
    refine ⟨⟨hle, by omega⟩, hfalse, Or.inr ?_⟩
    rcases htrue with hlast | htrue
    · rw [hlast]
      have hi : i - 1 + 1 = i := by omega
      rw [hi]
      apply hbefore
    · apply htrue
  | case2 l r h i hne hbefore ih =>
    have heq : search before l r h = search before i r (by omega) := by
      rw [search.eq_def, dif_pos hne]
      exact if_neg hbefore
    rw [heq]
    obtain ⟨⟨hle, hlt⟩, hfalse, htrue⟩ := ih
    refine ⟨⟨by omega, hlt⟩, Or.inr ?_, htrue⟩
    rcases hfalse with hfirst | hfalse
    · rw [hfirst]
      apply Bool.eq_false_iff.mpr hbefore
    · apply hfalse
  | case3 l r hle heq =>
    have hsearch : search before l r hle = (l + r + 1) / 2 := by
      rw [search.eq_def, dif_neg heq]
    rw [hsearch]
    exact ⟨by omega, Or.inl (by omega), Or.inl (by omega)⟩

/-! ### Entries -/

/-- The text after the last dot of a domain. -/
def LastLabel (domain tld : QString) : Prop :=
  dot ∉ tld ∧ ∃ before, domain = before ++ dot :: tld

def IsEntry (list : OffsetStringArray) (text : QString) : Prop :=
  ∃ e ∈ list.entries, text = fromLatin1 e

/-- The text after the last dot is an entry of the list. -/
def Whitelisted (list : OffsetStringArray) (domain : QString) : Prop :=
  ∃ tld, LastLabel domain tld ∧ IsEntry list tld

/-- The part of a text that is left when its length is made an `int`. -/
def textRead (tld : QString) : QString :=
  tld.take (toInt tld.length).toNat

def BeginsFirstEntry (list : OffsetStringArray) (text : QString) : Prop :=
  text <+: fromLatin1 (list.at_ 0) ∧ text ≠ fromLatin1 (list.at_ 0)

/-- Texts that are taken for entries: those that the first entry begins with, and texts so long
that an entry, or the beginning of the first one, is what is left of them. -/
def Mistaken (list : OffsetStringArray) (tld : QString) : Prop :=
  0 ≤ toInt tld.length ∧
    (BeginsFirstEntry list (textRead tld) ∨ 2 ^ 31 ≤ tld.length ∧ IsEntry list (textRead tld))

theorem toInt_of_lt {size : ℕ} (h : size < 2 ^ 31) :
  toInt size = size
  := by
  unfold toInt
  apply Int.bmod_eq_of_le_mul_two
  · omega
  · omega

theorem toInt_toNat_le (size : ℕ) :
  (toInt size).toNat ≤ size
  := by
  by_cases h : size < 2 ^ 31
  · rw [toInt_of_lt h]
    apply Nat.le_refl
  · have hlt : toInt size < 2 ^ 31 := Int.bmod_lt (Nat.two_pow_pos 32)
    omega

namespace OffsetStringArray

variable (list : OffsetStringArray)

theorem count_pos :
  0 < list.count
  := List.length_pos_iff.mpr list.not_empty

theorem at_mem {i : ℕ} (h : i < list.count) :
  list.at_ i ∈ list.entries
  := by
  rw [at_, List.getD_eq_getElem _ _ h]
  apply List.getElem_mem

theorem exists_at {e : QByteArray} (h : e ∈ list.entries) :
  ∃ i < list.count, list.at_ i = e
  := by
  obtain ⟨i, hi, rfl⟩ := List.getElem_of_mem h
  use i, hi
  apply List.getD_eq_getElem

theorem at_lt {i j : ℕ} (hlt : i < j) (h : j < list.count) :
  fromLatin1 (list.at_ i) < fromLatin1 (list.at_ j)
  := by
  apply fromLatin1_lt
  rw [at_, at_, List.getD_eq_getElem _ _ h, List.getD_eq_getElem _ _ (Nat.lt_trans hlt h)]
  apply List.pairwise_iff_getElem.mp list.sorted _ _ _ _ hlt

theorem at_le {i j : ℕ} (hle : i ≤ j) (h : j < list.count) :
  fromLatin1 (list.at_ i) ≤ fromLatin1 (list.at_ j)
  := by
  rcases Nat.lt_or_eq_of_le hle with hlt | rfl
  · apply List.le_of_lt (list.at_lt hlt h)
  · apply List.le_refl

end OffsetStringArray

/-- A text that another one begins with is not greater. -/
theorem prefix_le {text other : QString} (h : text <+: other) :
  text ≤ other
  := by
  obtain ⟨rest, rfl⟩ := h
  apply List.le_append_left

section Search

variable (list : OffsetStringArray) {text : QString} {i : ℕ}

/-- What `search_spec` says of the place in a list where the search for a text ends. -/
structure Found (text : QString) (i : ℕ) : Prop where
  lt : i < list.count
  reached : i = 0 ∨ ¬ text < fromLatin1 (list.at_ i)
  next : i + 1 = list.count ∨ text < fromLatin1 (list.at_ (i + 1))

/-- The place that the search finds is the place of the text, if the text is an entry. -/
theorem Found.eq {k : ℕ} (h : Found list (fromLatin1 (list.at_ k)) i) (hk : k < list.count) :
  i = k
  := by
  rcases Nat.lt_trichotomy i k with hlt | heq | hlt
  · rcases h.next with hlast | hnext
    · omega
    · exact absurd hnext (list.at_le hlt hk)
  · apply heq
  · rcases h.reached with hzero | hreached
    · omega
    · exact absurd (list.at_lt hlt h.lt) hreached

/-- The entry that the search finds begins with the text for an entry, and for a text that the
first entry begins with. -/
theorem Found.prefix_iff (h : Found list text i) :
  text <+: fromLatin1 (list.at_ i) ↔ IsEntry list text ∨ BeginsFirstEntry list text
  := by
  constructor
  · intro hbegin
    by_cases heq : text = fromLatin1 (list.at_ i)
    · exact Or.inl ⟨_, list.at_mem h.lt, heq⟩
    · rcases h.reached with rfl | hreached
      · exact Or.inr ⟨hbegin, heq⟩
      · exact absurd (List.le_antisymm (prefix_le hbegin) hreached) heq
  · rintro (⟨e, hmem, rfl⟩ | ⟨hbegin, hne⟩)
    · obtain ⟨k, hk, rfl⟩ := list.exists_at hmem
      rw [h.eq list hk]
    · rcases h.reached with rfl | hreached
      · apply hbegin
      · have hle : text ≤ fromLatin1 (list.at_ i) :=
          List.le_trans (prefix_le hbegin) (list.at_le (Nat.zero_le _) h.lt)
        have heq : text = fromLatin1 (list.at_ i) := List.le_antisymm hle hreached
        have hfirst : fromLatin1 (list.at_ i) ≤ fromLatin1 (list.at_ 0) :=
          heq ▸ prefix_le hbegin
        have heq_zero : fromLatin1 (list.at_ i) = fromLatin1 (list.at_ 0) :=
          List.le_antisymm hfirst (list.at_le (Nat.zero_le _) h.lt)
        exact absurd (heq.trans heq_zero) hne

end Search

/-! ### The domains that are enabled -/

variable {domain tld : QString}

theorem LastLabel.lastIndexOf {before : QString} (hdot : dot ∉ tld)
    (h : domain = before ++ dot :: tld) :
  domain.lastIndexOf dot (domain.length - 1) = some before.length
  := by
  have hlength : domain.length - 1 = before.length + tld.length := by
    rw [h, List.length_append, List.length_cons]
    omega
  have happend : (before ++ dot :: (tld ++ [])).lastIndexOf dot (before.length + tld.length)
      = some before.length := QString.lastIndexOf_append hdot
  rw [List.append_nil] at happend
  rw [hlength, h, happend]

theorem LastLabel.unique {tld' : QString} (h : LastLabel domain tld) (h' : LastLabel domain tld') :
  tld = tld'
  := by
  obtain ⟨hdot, before, heq⟩ := h
  obtain ⟨hdot', before', heq'⟩ := h'
  have hindex := LastLabel.lastIndexOf hdot heq
  rw [LastLabel.lastIndexOf hdot' heq', Option.some_inj] at hindex
  rw [heq] at heq'
  have hrest := (List.append_inj heq' hindex.symm).2
  rw [List.cons.injEq] at hrest
  apply hrest.2

theorem exists_lastLabel (h : dot ∈ domain) :
  ∃ tld, LastLabel domain tld
  := by
  obtain ⟨rest, before, heq, hdot⟩ := List.eq_append_cons_of_mem (List.mem_reverse.mpr h)
  use rest.reverse, mt List.mem_reverse.mp hdot, before.reverse
  rw [← List.reverse_inj, heq]
  simp

theorem lastIndexOf_none (h : dot ∉ domain) (start : ℕ) :
  domain.lastIndexOf dot start = none
  := by
  have hne : ∀ i : ℕ, domain[i]? ≠ some dot := by
    intro i hi
    apply h (List.mem_of_getElem? hi)
  induction start with
  | zero => rw [QString.lastIndexOf, if_neg (hne 0)]
  | succ start ih => rw [QString.lastIndexOf, if_neg (hne _), ih]

theorem search_found (list : OffsetStringArray) (h : 0 ≤ toInt tld.length) :
  Found list (textRead tld) (search (fun i => lessThan tld (toInt tld.length) (list.at_ i)) 0
    (list.count - 1) (Nat.zero_le _))
  := by
  have hpos := list.count_pos
  have hbefore : ∀ i, lessThan tld (toInt tld.length) (list.at_ i) = true ↔
      textRead tld < fromLatin1 (list.at_ i) := by
    intro i
    rw [textRead, ← lessThan_iff _ (toInt_toNat_le _), Int.toNat_of_nonneg h]
  obtain ⟨⟨-, hle⟩, hfalse, htrue⟩ :=
    search_spec (fun i => lessThan tld (toInt tld.length) (list.at_ i)) 0 (list.count - 1)
      (Nat.zero_le _)
  constructor
  · omega
  · rcases hfalse with hzero | hfalse
    · exact Or.inl hzero
    · right
      rw [← hbefore, hfalse]
      apply Bool.noConfusion
  · rcases htrue with hlast | htrue
    · left
      omega
    · exact Or.inr ((hbefore _).mp htrue)

/-- What `qt_is_idn_enabled` accepts. -/
theorem enabled_iff (list : OffsetStringArray) (h : LastLabel domain tld) :
  qt_is_idn_enabled none list domain = true ↔
    0 ≤ toInt tld.length ∧
      (IsEntry list (textRead tld) ∨ BeginsFirstEntry list (textRead tld))
  := by
  obtain ⟨hdot, before, heq⟩ := h
  have htld : domain.drop (before.length + 1) = tld := by
    rw [heq, List.drop_append, List.drop_eq_nil_of_le (Nat.le_succ _), Nat.add_sub_cancel_left]
    rfl
  rw [qt_is_idn_enabled, LastLabel.lastIndexOf hdot heq]
  dsimp only
  rw [htld]
  by_cases hneg : toInt tld.length < 0
  · rw [equal_neg _ _ hneg]
    constructor
    · apply Bool.noConfusion
    · rintro ⟨hnonneg, -⟩
      omega
  · rw [Int.not_lt] at hneg
    have hfound := search_found list hneg
    have hread := equal_iff (list.null_terminated _ (list.at_mem hfound.lt))
      (toInt_toNat_le tld.length)
    rw [Int.toNat_of_nonneg hneg] at hread
    rw [hread, ← hfound.prefix_iff list]
    exact ⟨fun hbegin => ⟨hneg, hbegin⟩, And.right⟩

/-- `qt_is_idn_enabled` says whether the text after the last dot is an entry exactly when that
text is not mistaken for one. -/
theorem qt_is_idn_enabled_exact (list : OffsetStringArray) (domain : QString) :
  (qt_is_idn_enabled none list domain = true ↔ Whitelisted list domain) ↔
    ∀ tld, LastLabel domain tld → ¬ Mistaken list tld
  := by
  by_cases h_mem : dot ∈ domain
  · obtain ⟨tld, h_label⟩ := exists_lastLabel h_mem
    have h_listed : Whitelisted list domain ↔ IsEntry list tld := by
      constructor
      · rintro ⟨tld', h_label', h_entry⟩
        rw [h_label.unique h_label']
        apply h_entry
      · intro h_entry
        use tld
    have h_all : (∀ tld, LastLabel domain tld → ¬ Mistaken list tld) ↔ ¬ Mistaken list tld := by
      constructor
      · intro h
        apply h tld h_label
      · intro h tld' h_label'
        rw [← h_label.unique h_label']
        apply h
    rw [h_listed, h_all, enabled_iff list h_label, Mistaken]
    by_cases h_length : tld.length < 2 ^ 31
    · have h_read : textRead tld = tld := by
        rw [textRead, toInt_of_lt h_length, Int.toNat_natCast, List.take_length]
      have h_not : ¬ (BeginsFirstEntry list tld ∧ IsEntry list tld) := by
        rintro ⟨⟨h_begin, h_ne⟩, e, h_e, rfl⟩
        obtain ⟨k, h_k, rfl⟩ := list.exists_at h_e
        apply h_ne
        apply List.le_antisymm (prefix_le h_begin) (list.at_le (Nat.zero_le _) h_k)
      have h_nonneg : 0 ≤ toInt tld.length := by
        rw [toInt_of_lt h_length]
        omega
      rw [h_read]
      have h_lt : ¬ 2 ^ 31 ≤ tld.length := Nat.not_le.mpr h_length
      simp only [h_nonneg, h_lt, true_and, false_and, or_false]
      rw [or_iff_left_iff_imp]
      constructor
      · intro h_entry h_begins
        exact h_not ⟨h_begins, h_entry h_begins⟩
      · intro h_begins h
        exact absurd h h_begins
    · have h_not : ¬ IsEntry list tld := by
        rintro ⟨e, h_e, rfl⟩
        rw [length_fromLatin1] at h_length
        apply h_length (list.length_lt e h_e)
      have h_le : 2 ^ 31 ≤ tld.length := Nat.not_lt.mp h_length
      simp only [h_not, h_le, true_and, iff_false]
      rw [or_comm]
  · have h_none : ∀ tld, ¬ LastLabel domain tld := by
      rintro tld ⟨-, before, rfl⟩
      apply h_mem
      simp
    rw [qt_is_idn_enabled, lastIndexOf_none h_mem]
    constructor
    · intro _ tld h_label
      exact absurd h_label (h_none tld)
    · intro _
      constructor
      · apply Bool.noConfusion
      · rintro ⟨tld, h_label, -⟩
        exact absurd h_label (h_none tld)

/-- The list that is built in, with its entries as they stand in the source. -/
def idn_whitelist : OffsetStringArray where
  entries := [
    "ac", "ar", "asia", "at",
    "biz", "br",
    "cat", "ch", "cl", "cn", "com",
    "de", "dk",
    "es",
    "fi",
    "gr",
    "hu",
    "il", "info", "io", "ir", "is",
    "jp",
    "kr",
    "li", "lt", "lu", "lv",
    "museum",
    "name", "net", "no", "nu", "nz",
    "org",
    "pl", "pr",
    "se", "sh",
    "tel", "th", "tm", "tw",
    "ua",
    "vn",
    "xn--fiqs8s",
    "xn--fiqz9s",
    "xn--fzc2c9e2c",
    "xn--j6w193g",
    "xn--kprw13d",
    "xn--kpry57d",
    "xn--mgba3a4f16a",
    "xn--mgba3a4fra",
    "xn--mgbaam7a8h",
    "xn--mgbayh7gpa",
    "xn--mgberp4a5d4ar",
    "xn--ogbpf8fl",
    "xn--p1ai",
    "xn--wgbh1c",
    "xn--wgbl6a",
    "xn--xkc2al3hye2a"].map fun s => s.toList.map fun c => c.toNat.toUInt8
  sorted := by decide
  not_empty := by decide
  null_terminated := by decide
  length_lt := by decide

/-- `xn--e1afmkfd.`, with a dot at the end. -/
def absoluteName : QString :=
  [0x78, 0x6e, 0x2d, 0x2d, 0x65, 0x31, 0x61, 0x66, 0x6d, 0x6b, 0x66, 0x64, 0x2e]

/-- A domain that ends with a dot is enabled, whatever its top-level domain. -/
theorem emptyLabel_enabled :
  qt_is_idn_enabled none idn_whitelist absoluteName = true
    ∧ ¬ Whitelisted idn_whitelist absoluteName
  := by
  have h_label : LastLabel absoluteName [] := by
    use List.not_mem_nil, absoluteName.dropLast
    rfl
  constructor
  · rw [enabled_iff _ h_label]
    constructor
    · decide
    · right
      use List.nil_prefix
      decide
  · rintro ⟨tld, h_label', e, h_e, rfl⟩
    have h_nil := h_label.unique h_label'
    revert h_e
    rw [show e = [] from fromLatin1_injective h_nil.symm]
    decide

end QUrlIdna
