import Mathlib.Data.Finset.Card
import Mathlib.Data.Fintype.Defs

/-!
# Implicitly shared data

Handles point to data that count the handles that point to them.  A copy of a handle shares its
data, and data that are shared are copied before they are changed through one of their handles.
What the handles show (`Store.view`) then changes as if each of them had data of its own.
-/

namespace SharedData

/-- Data with the number of handles that point to them. -/
class RefCounted (α : Type) where
  ref : α → ℕ
  withRef : ℕ → α → α
  ref_withRef : ∀ n a, ref (withRef n a) = n
  withRef_ref : ∀ a, withRef (ref a) a = a
  withRef_withRef : ∀ m n a, withRef m (withRef n a) = withRef m a

open RefCounted

attribute [simp] ref_withRef withRef_ref withRef_withRef

/-- A pointer to data, and what each copy of it has for itself. -/
structure Handle (σ : Type) where
  d : Option ℕ
  own : σ

/-- The data at the addresses below `top`, and the handles. -/
structure Store (ι α σ : Type) where
  heap : ℕ → Option α
  top : ℕ
  handles : ι → Handle σ

variable {ι α σ ε : Type} [DecidableEq ι] [RefCounted α]

def isShared (v : α) : Bool :=
  ref v ≠ 1 ∧ ref v ≠ 0

/-- One handle less points to the data, which are deleted with the last one. -/
def deref (v : α) : Option α :=
  if ref v - 1 = 0 then none else some (withRef (ref v - 1) v)

namespace Store

/-! ### Operations -/

/-- The data that a handle points to. -/
def data (s : Store ι α σ) (x : ι) : Option α :=
  (s.handles x).d.bind s.heap

def isDetached (s : Store ι α σ) (x : ι) : Bool :=
  match s.data x with
  | none => false
  | some v => !isShared v

def setHandle (x : ι) (h : Handle σ) (s : Store ι α σ) : Store ι α σ :=
  { s with handles := Function.update s.handles x h }

def setOwn (x : ι) (own : σ) (s : Store ι α σ) : Store ι α σ :=
  s.setHandle x ⟨(s.handles x).d, own⟩

/-- One more handle points to the data at an address. -/
def acquire (a : ℕ) (s : Store ι α σ) : Store ι α σ :=
  { s with heap := Function.update s.heap a ((s.heap a).map fun v => withRef (ref v + 1) v) }

def release (a : ℕ) (s : Store ι α σ) : Store ι α σ :=
  { s with heap := Function.update s.heap a ((s.heap a).bind deref) }

def acquireOf (x : ι) (s : Store ι α σ) : Store ι α σ :=
  match (s.handles x).d with
  | none => s
  | some a => s.acquire a

def releaseOf (x : ι) (s : Store ι α σ) : Store ι α σ :=
  match (s.handles x).d with
  | none => s
  | some a => s.release a

/-- New data for a handle. -/
def alloc (x : ι) (v : α) (s : Store ι α σ) : Store ι α σ where
  heap := Function.update s.heap s.top (some v)
  top := s.top + 1
  handles := Function.update s.handles x ⟨some s.top, (s.handles x).own⟩

/-- The data of a handle are changed where they are, all but their reference count. -/
def write (x : ι) (v : α) (s : Store ι α σ) : Store ι α σ :=
  match (s.handles x).d with
  | none => s
  | some a =>
    { s with heap := Function.update s.heap a ((s.heap a).map fun w => withRef (ref w) v) }

/-- The handle `x` lets go of its data. -/
def clear (x : ι) (own : σ) (s : Store ι α σ) : Store ι α σ :=
  (s.releaseOf x).setHandle x ⟨none, own⟩

/-- The handle `x` becomes a copy of the handle `y`. -/
def assign (x y : ι) (s : Store ι α σ) : Store ι α σ :=
  if (s.handles x).d = (s.handles y).d then s
  else ((s.acquireOf y).releaseOf x).setHandle x (s.handles y)

/-- The handle `x` gets data of its own. -/
def detach (create : Except ε α) (copy : α → Except ε α) (x : ι) (s : Store ι α σ) :
    Except ε (Store ι α σ) :=
  match s.data x with
  | none => do pure (s.alloc x (← create))
  | some v => if isShared v then do pure ((s.releaseOf x).alloc x (← copy v)) else pure s

omit [DecidableEq ι] in
@[simp]
theorem acquireOf_handles (s : Store ι α σ) (x : ι) :
  (s.acquireOf x).handles = s.handles
  := by
  unfold acquireOf
  split <;> rfl

omit [DecidableEq ι] in
@[simp]
theorem releaseOf_handles (s : Store ι α σ) (x : ι) :
  (s.releaseOf x).handles = s.handles
  := by
  unfold releaseOf
  split <;> rfl

theorem clear_handles (s : Store ι α σ) (x : ι) (own : σ) :
  (s.clear x own).handles = Function.update s.handles x ⟨none, own⟩
  := by
  simp [clear, setHandle]

theorem setOwn_write (s : Store ι α σ) (x : ι) (own : σ) (v : α) :
  (s.setOwn x own).write x v = (s.write x v).setOwn x own
  := by
  unfold write setOwn setHandle
  simp only [Function.update_self]
  cases h : (s.handles x).d <;> simp [h]

omit [DecidableEq ι] in
@[simp]
theorem write_handles (s : Store ι α σ) (x : ι) (v : α) :
  (s.write x v).handles = s.handles
  := by
  unfold write
  split <;> rfl

/-- What a handle shows: its data, whatever their reference count is, and what is its own. -/
def view (s : Store ι α σ) (x : ι) : Option α × σ :=
  ((s.data x).map (withRef 0), (s.handles x).own)

/-! ### Counting -/

variable [Fintype ι]

/-- The handles that point to an address. -/
def owners (s : Store ι α σ) (a : ℕ) : Finset ι :=
  Finset.univ.filter fun x => (s.handles x).d = some a

/-- The heap holds a content at the addresses that have owners, and nothing else; the data count
their owners. -/
structure Holds (s : Store ι α σ) (content : ℕ → α) : Prop where
  heap_eq : ∀ a, s.heap a =
    if s.owners a = ∅ then none else some (withRef (s.owners a).card (content a))
  fresh : ∀ a, s.top ≤ a → s.owners a = ∅

/-- The data count the handles that point to them. -/
def Counted (s : Store ι α σ) : Prop :=
  ∃ content, s.Holds content

variable {s : Store ι α σ} {content : ℕ → α} {x y : ι} {a : ℕ}

omit [DecidableEq ι] [RefCounted α] in
theorem mem_owners :
  x ∈ s.owners a ↔ (s.handles x).d = some a
  := by
  rw [owners, Finset.mem_filter_univ]

omit [RefCounted α] in
/-- Only the handle that is changed comes to an address or leaves it. -/
theorem owners_update {s' : Store ι α σ} {h : Handle σ}
    (hhandles : s'.handles = Function.update s.handles x h) (a : ℕ) :
  s'.owners a = if h.d = some a then insert x (s.owners a) else (s.owners a).erase x
  := by
  ext y
  rw [mem_owners, hhandles]
  by_cases hy : y = x
  · rw [hy, Function.update_self]
    split
    next ha => simp [ha]
    next ha => simp [ha]
  · rw [Function.update_of_ne hy]
    split
    next => rw [Finset.mem_insert, mem_owners, or_iff_right hy]
    next => rw [Finset.mem_erase, mem_owners, and_iff_right hy]

theorem Holds.heap_of_owner (h : s.Holds content) (hx : (s.handles x).d = some a) :
  s.heap a = some (withRef (s.owners a).card (content a))
  := by
  have hne : s.owners a ≠ ∅ := Finset.ne_empty_of_mem (mem_owners.mpr hx)
  rw [h.heap_eq, if_neg hne]

theorem Holds.view_eq (h : s.Holds content) (x : ι) :
  s.view x = ((s.handles x).d.map fun a => withRef 0 (content a), (s.handles x).own)
  := by
  rw [view, data]
  cases hd : (s.handles x).d with
  | none => rfl
  | some a => simp [h.heap_of_owner hd]

theorem Counted.data_eq_none (h : s.Counted) :
  s.data x = none ↔ (s.handles x).d = none
  := by
  obtain ⟨content, h⟩ := h
  rw [data]
  cases hd : (s.handles x).d with
  | none => simp
  | some a => simp [h.heap_of_owner hd]

theorem Counted.ref_eq (h : s.Counted) {v : α} (hv : s.data x = some v) :
  ∃ a, (s.handles x).d = some a ∧ s.heap a = some v ∧ ref v = (s.owners a).card ∧ 0 < ref v
  := by
  obtain ⟨content, h⟩ := h
  obtain ⟨a, hd, hheap⟩ := Option.bind_eq_some_iff.mp hv
  have hcontent := h.heap_of_owner hd
  rw [hheap, Option.some.injEq] at hcontent
  have href : ref v = (s.owners a).card := by
    rw [hcontent, ref_withRef]
  refine ⟨a, hd, hheap, href, ?_⟩
  rw [href, Finset.card_pos]
  exact ⟨x, mem_owners.mpr hd⟩

theorem Counted.isShared_eq (h : s.Counted) {v : α} (hv : s.data x = some v) :
  isShared v = decide (ref v ≠ 1)
  := by
  obtain ⟨a, -, -, -, hpos⟩ := h.ref_eq hv
  rw [isShared, decide_eq_decide]
  omega

/-- The handles of a content show it; one of them has been changed. -/
theorem Holds.view_update {s' : Store ι α σ} {h : Handle σ} (hs : s.Holds content)
    (hs' : s'.Holds content) (hhandles : s'.handles = Function.update s.handles x h) :
  s'.view = Function.update s.view x (h.d.map fun a => withRef 0 (content a), h.own)
  := by
  funext y
  rw [hs'.view_eq, hhandles]
  by_cases hy : y = x
  · rw [hy, Function.update_self, Function.update_self]
  · rw [Function.update_of_ne hy, Function.update_of_ne hy, hs.view_eq]

/-! ### What the handles show -/

/-- A handle lets go of its data. -/
theorem Holds.clear (h : s.Holds content) (x : ι) (own : σ) :
  (s.clear x own).Holds content
  := by
  have howners (a : ℕ) : (s.clear x own).owners a = (s.owners a).erase x :=
    (owners_update (clear_handles s x own) a).trans (if_neg (Option.some_ne_none a).symm)
  constructor
  · intro a
    rw [howners]
    by_cases ha : (s.handles x).d = some a
    · have hheap : (s.clear x own).heap a = (s.heap a).bind deref := by
        simp [Store.clear, releaseOf, ha, release, setHandle]
      have hcard := Finset.card_erase_of_mem (mem_owners.mpr ha)
      rw [hheap, h.heap_of_owner ha, Option.bind_some, deref, ref_withRef, ← hcard,
        withRef_withRef]
      simp only [Finset.card_eq_zero]
    · have hheap : (s.clear x own).heap a = s.heap a := by
        unfold Store.clear releaseOf
        cases hd : (s.handles x).d with
        | none => rfl
        | some b =>
          apply Function.update_of_ne
          rintro rfl
          exact ha hd
      rw [Finset.erase_eq_of_notMem (fun hmem => ha (mem_owners.mp hmem)), hheap]
      exact h.heap_eq a
  · intro a ha
    have htop : (s.clear x own).top = s.top := by
      unfold Store.clear releaseOf
      split <;> rfl
    rw [howners, h.fresh a (htop ▸ ha), Finset.erase_empty]

theorem Counted.clear (h : s.Counted) (x : ι) (own : σ) :
  (s.clear x own).Counted ∧ (s.clear x own).view = Function.update s.view x (none, own)
  := by
  obtain ⟨content, h⟩ := h
  refine ⟨⟨content, h.clear x own⟩, ?_⟩
  exact h.view_update (h.clear x own) (clear_handles s x own)

/-- A handle that points to nothing comes to the data of another handle. -/
theorem Holds.share (h : s.Holds content) (hx : (s.handles x).d = none)
    (hy : (s.handles y).d = some a) (own : σ) :
  ((s.acquire a).setHandle x ⟨some a, own⟩).Holds content
  := by
  have howners (b : ℕ) : ((s.acquire a).setHandle x ⟨some a, own⟩).owners b
      = if b = a then insert x (s.owners b) else s.owners b := by
    rw [owners_update (s := s) (x := x) (h := ⟨some a, own⟩) rfl]
    by_cases hb : b = a
    · rw [hb, if_pos rfl, if_pos rfl]
    · have habsent : x ∉ s.owners b := by
        rw [mem_owners, hx]
        exact (Option.some_ne_none b).symm
      rw [if_neg (fun h => hb (Option.some.inj h).symm), if_neg hb,
        Finset.erase_eq_of_notMem habsent]
  constructor
  · intro b
    rw [howners]
    by_cases hb : b = a
    · have habsent : x ∉ s.owners a := by
        rw [mem_owners, hx]
        exact (Option.some_ne_none a).symm
      have hheap : ((s.acquire a).setHandle x ⟨some a, own⟩).heap a
          = (s.heap a).map fun v => withRef (ref v + 1) v := by
        simp [acquire, setHandle]
      rw [hb, if_pos rfl, if_neg (Finset.insert_ne_empty x _), hheap, h.heap_of_owner hy,
        Option.map_some, ref_withRef, withRef_withRef, Finset.card_insert_of_notMem habsent]
    · have hheap : ((s.acquire a).setHandle x ⟨some a, own⟩).heap b = s.heap b :=
        Function.update_of_ne hb ..
      rw [if_neg hb, hheap, h.heap_eq]
  · intro b hb
    have hba : b ≠ a := by
      rintro rfl
      exact Finset.ne_empty_of_mem (mem_owners.mpr hy) (h.fresh b hb)
    rw [howners, if_neg hba]
    exact h.fresh b hb

/-- The handle `x` becomes a copy of the handle `y`, where two handles to the same data have
the same for themselves. -/
theorem Counted.assign (h : s.Counted) (x y : ι)
    (hown : (s.handles x).d = (s.handles y).d → s.view x = s.view y) :
  (s.assign x y).Counted ∧ (s.assign x y).view = Function.update s.view x (s.view y)
  := by
  by_cases hd : (s.handles x).d = (s.handles y).d
  · rw [Store.assign, if_pos hd, ← hown hd, Function.update_eq_self]
    exact ⟨h, rfl⟩
  obtain ⟨content, h⟩ := h
  have hclear := h.clear x (s.handles y).own
  have hhandles : (s.assign x y).handles = Function.update s.handles x (s.handles y) := by
    simp [Store.assign, hd, setHandle]
  have hassign : (s.assign x y).Holds content := by
    rw [Store.assign, if_neg hd]
    cases hy : (s.handles y).d with
    | none =>
      have heq : s.handles y = ⟨none, (s.handles y).own⟩ := by
        rw [← hy]
      rw [acquireOf, hy, heq]
      exact hclear
    | some b =>
      have hxy : y ≠ x := by
        rintro rfl
        exact hd rfl
      have heq : s.handles y = ⟨some b, (s.handles y).own⟩ := by
        rw [← hy]
      have hshare := hclear.share (x := x) (y := y) (a := b)
        (by rw [clear_handles, Function.update_self])
        (by rw [clear_handles, Function.update_of_ne hxy, hy]) (s.handles y).own
      -- The data are released before or after the others are acquired.
      convert hshare using 1
      rw [acquireOf, hy, heq]
      dsimp only
      unfold Store.clear releaseOf setHandle acquire
      dsimp only
      cases hx : (s.handles x).d with
      | none => simp
      | some a =>
        have hab : a ≠ b := by
          rintro rfl
          exact hd (hx.trans hy.symm)
        simp only [release, Function.update_idem, Function.update_of_ne hab,
          Function.update_of_ne hab.symm, Store.mk.injEq, and_true]
        exact Function.update_comm hab.symm _ _ _
  refine ⟨⟨content, hassign⟩, ?_⟩
  rw [h.view_update hassign hhandles, h.view_eq]

/-- New data for a handle that points to nothing. -/
theorem Holds.alloc (h : s.Holds content) (hx : (s.handles x).d = none) {v : α}
    (hv : ref v = 1) :
  (s.alloc x v).Holds (Function.update content s.top v)
  := by
  have howners (b : ℕ) : (s.alloc x v).owners b
      = if b = s.top then {x} else s.owners b := by
    rw [owners_update (s := s) (x := x) (h := ⟨some s.top, (s.handles x).own⟩) rfl]
    by_cases hb : b = s.top
    · rw [hb, if_pos rfl, if_pos rfl, h.fresh s.top (Nat.le_refl _)]
      rfl
    · have habsent : x ∉ s.owners b := by
        rw [mem_owners, hx]
        exact (Option.some_ne_none b).symm
      rw [if_neg (fun h => hb (Option.some.inj h).symm), if_neg hb,
        Finset.erase_eq_of_notMem habsent]
  constructor
  · intro b
    rw [howners]
    by_cases hb : b = s.top
    · rw [hb, if_pos rfl, if_neg (Finset.singleton_ne_empty x), Finset.card_singleton,
        Function.update_self, ← hv, withRef_ref]
      exact Function.update_self ..
    · rw [if_neg hb, Function.update_of_ne hb, ← h.heap_eq]
      exact Function.update_of_ne hb ..
  · intro b hb
    have hlt : s.top < b := hb
    rw [howners, if_neg (Nat.ne_of_gt hlt)]
    exact h.fresh b (Nat.le_of_lt hlt)

theorem Counted.alloc (h : s.Counted) (hx : (s.handles x).d = none) {v : α} (hv : ref v = 1) :
  (s.alloc x v).Counted
    ∧ (s.alloc x v).view = Function.update s.view x (some (withRef 0 v), (s.view x).2)
  := by
  obtain ⟨content, h⟩ := h
  have halloc := h.alloc hx hv
  refine ⟨⟨_, halloc⟩, ?_⟩
  funext y
  rw [halloc.view_eq]
  change (Option.map _ (Function.update s.handles x _ y).d, (Function.update s.handles x _ y).own)
    = _
  by_cases hy : y = x
  · rw [hy, Function.update_self, Function.update_self, Option.map_some, Function.update_self]
    rfl
  · rw [Function.update_of_ne hy, Function.update_of_ne hy, h.view_eq]
    cases hd : (s.handles y).d with
    | none => rfl
    | some a =>
      have ha : a ≠ s.top := by
        rintro rfl
        exact Finset.ne_empty_of_mem (mem_owners.mpr hd) (h.fresh s.top (Nat.le_refl _))
      rw [Option.map_some, Option.map_some, Function.update_of_ne ha]

/-- Data that are not shared are changed. -/
theorem Counted.write (h : s.Counted) {v : α} (hv : s.data x = some v) (href : ref v = 1)
    (v' : α) :
  (s.write x v').Counted ∧ (s.write x v').data x = some (withRef 1 v')
    ∧ (s.write x v').view = Function.update s.view x (some (withRef 0 v'), (s.view x).2)
  := by
  obtain ⟨a, hd, ha, hcard, -⟩ := h.ref_eq hv
  have honly : ∀ y, (s.handles y).d = some a → y = x := by
    rw [href] at hcard
    intro y hy
    exact Finset.card_le_one.mp (Nat.le_of_eq hcard.symm) y (mem_owners.mpr hy) x
      (mem_owners.mpr hd)
  obtain ⟨content, h⟩ := h
  have hwrite : s.write x v'
      = { s with heap := Function.update s.heap a (some (withRef 1 v')) } := by
    rw [Store.write, hd]
    dsimp only
    rw [ha, Option.map_some, href]
  have hholds : (s.write x v').Holds (Function.update content a v') := by
    rw [hwrite]
    refine ⟨?_, h.fresh⟩
    intro b
    change Function.update s.heap a (some (withRef 1 v')) b
      = if s.owners b = ∅ then none else some (withRef (s.owners b).card _)
    by_cases hb : b = a
    · rw [hb, Function.update_self, Function.update_self, ← hcard, href,
        if_neg (Finset.ne_empty_of_mem (mem_owners.mpr hd))]
    · rw [Function.update_of_ne hb, Function.update_of_ne hb, h.heap_eq]
  refine ⟨⟨_, hholds⟩, ?_, ?_⟩
  · rw [hwrite]
    simp [data, hd]
  funext y
  rw [hholds.view_eq, hwrite]
  dsimp only
  by_cases hy : y = x
  · rw [hy, Function.update_self, hd, Option.map_some, Function.update_self]
    rfl
  · rw [Function.update_of_ne hy, h.view_eq]
    cases hyd : (s.handles y).d with
    | none => rfl
    | some b =>
      have hb : b ≠ a := by
        rintro rfl
        exact hy (honly y hyd)
      rw [Option.map_some, Option.map_some, Function.update_of_ne hb]

theorem Counted.setOwn (h : s.Counted) (x : ι) (own : σ) :
  (s.setOwn x own).Counted
    ∧ (s.setOwn x own).view = Function.update s.view x ((s.view x).1, own)
  := by
  obtain ⟨content, h⟩ := h
  have hd (y : ι) : ((s.setOwn x own).handles y).d = (s.handles y).d := by
    change (Function.update s.handles x _ y).d = _
    by_cases hy : y = x
    · rw [hy, Function.update_self]
    · rw [Function.update_of_ne hy]
  have howners : (s.setOwn x own).owners = s.owners := by
    funext a
    unfold owners
    simp only [hd]
  have hholds : (s.setOwn x own).Holds content := by
    refine ⟨?_, ?_⟩
    · rw [howners]
      exact h.heap_eq
    · rw [howners]
      exact h.fresh
  refine ⟨⟨content, hholds⟩, ?_⟩
  rw [h.view_update hholds (h := ⟨(s.handles x).d, own⟩) rfl, h.view_eq]

/-- A handle gets a copy of its data where they are shared. -/
theorem Counted.detach (h : s.Counted) (create : Except ε α) (copy : α → Except ε α) {v : α}
    (hv : s.data x = some v) (hcopy : copy v = .ok (withRef 1 v)) :
  ∃ s', s.detach create copy x = .ok s' ∧ s'.Counted ∧ s'.data x = some (withRef 1 v)
    ∧ s'.view = s.view
  := by
  obtain ⟨a, hd, -⟩ := h.ref_eq hv
  rw [Store.detach, hv]
  dsimp only
  rw [h.isShared_eq hv]
  by_cases href : ref v = 1
  · refine ⟨s, by simp [href]; rfl, h, ?_, rfl⟩
    rw [hv, ← href, withRef_ref]
  · obtain ⟨hcleared, hview⟩ := h.clear x (s.handles x).own
    obtain ⟨halloc, hview'⟩ := hcleared.alloc (x := x) (v := withRef 1 v)
      (by rw [clear_handles, Function.update_self]) (ref_withRef 1 v)
    refine ⟨(s.clear x (s.handles x).own).alloc x (withRef 1 v), ?_, halloc, ?_, ?_⟩
    · rw [decide_eq_true href, if_pos rfl, hcopy]
      simp [Store.clear, setHandle, Store.alloc]
    · simp [data, Store.alloc]
    · rw [hview', hview, Function.update_idem, Function.update_self, withRef_withRef]
      have hx : s.view x = (some (withRef 0 v), (s.handles x).own) := by
        rw [view, hv]
        rfl
      rw [← hx, Function.update_eq_self]

/-- A handle that has had no data gets new ones. -/
theorem Counted.detach_null (h : s.Counted) {create : Except ε α} (copy : α → Except ε α) {v : α}
    (hx : s.data x = none) (hcreate : create = .ok v) (hv : ref v = 1) :
  ∃ s', s.detach create copy x = .ok s' ∧ s'.Counted ∧ s'.data x = some v
    ∧ s'.view = Function.update s.view x (some (withRef 0 v), (s.view x).2)
  := by
  obtain ⟨halloc, hview⟩ := h.alloc (h.data_eq_none.mp hx) hv
  refine ⟨s.alloc x v, ?_, halloc, ?_, hview⟩
  · rw [Store.detach, hx, hcreate]
    rfl
  · simp [data, Store.alloc]

end Store

end SharedData
