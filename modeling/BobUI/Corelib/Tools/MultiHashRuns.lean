import BobUI.Corelib.Tools.MultiHashOperations

/-!
# The hash with many values is a map to lists

A run of operations on some objects does what the same operations do to maps from keys to lists
of values, which the objects hold then.
-/

open QHashPrivate SharedData

namespace QMultiHash

variable {ι K V : Type} [DecidableEq ι] [DecidableEq K] {hash : K → ℕ → ℕ}

/-! ### Maps to lists -/

/-- What an operation does to the maps of the objects, and what it returns. -/
def MapStep [Inhabited V] [BEq V] (m : ι → K → List V) :
    Op ι V hash → Result K V → (ι → K → List V) → Prop
  | .assign x y, .done, m' => m' = Function.update m x (m y)
  | .clear x, .done, m' => m' = Function.update m x fun _ => []
  | .insert x key value, .entry e, m' =>
    e = ⟨key, value⟩ ∧ m' = Function.update m x (Function.update (m x) key (value :: m x key))
  | .replace x key value, .entry e, m' =>
    e = ⟨key, value⟩
      ∧ m' = Function.update m x (Function.update (m x) key (value :: (m x key).tail))
  | .operatorIndex x key, .value value, m' =>
    value = (m x key).headD default
      ∧ m' = Function.update m x
        (Function.update (m x) key (if m x key = [] then [default] else m x key))
  | .remove x key, .count n, m' =>
    n = (m x key).length ∧ m' = Function.update m x (Function.update (m x) key [])
  | .removeValue x key value, .count n, m' =>
    n = (m x key).countP (· == value)
      ∧ m' = Function.update m x (Function.update (m x) key ((m x key).filter (! · == value)))
  | .take x key, .value value, m' =>
    value = (m x key).headD default
      ∧ m' = Function.update m x (Function.update (m x) key (m x key).tail)
  | .erase x it, .erased e next, m' =>
    (m x e.key)[it.e]? = some e.value
      ∧ m' = Function.update m x (Function.update (m x) e.key ((m x e.key).eraseIdx it.e))
      ∧ ∀ entry ∈ next, entry.value ∈ m' x entry.key
  | .unite x y, .done, m' => ∃ m_x, united (m x) (m y) m_x ∧ m' = Function.update m x m_x
  | .uniteHash x other, .done, m' =>
    m' = Function.update m x fun key => (other.map key).toList ++ m x key
  | _, _, _ => False

/-- The same for the operations of a run. -/
inductive MapRun [Inhabited V] [BEq V] :
    (ι → K → List V) → List (Op ι V hash) → List (Result K V) → (ι → K → List V) → Prop
  | nil (m) : MapRun m [] [] m
  | cons {m m₁ m' op result ops results} :
    MapStep m op result m₁ → MapRun m₁ ops results m' →
      MapRun m (op :: ops) (result :: results) m'

omit [DecidableEq ι] in
/-- An object holds a map to lists: they are what `values` returns, no chain of its table is
empty, it counts the values of all chains, and the iteration over it yields each entry of a key
once, in the order of its list. -/
structure HoldsLists (s : Memory ι K V) (hash : K → ℕ → ℕ) (x : ι) (m : K → List V) : Prop where
  values_eq : ∀ key, values hash s (some x) key = .ok (m key)
  chain_ne : ∀ d, s.data (some x) = some d → ∀ n ∈ d.nodes, n.value ≠ []
  size_eq : mSize s (some x) = ((s.data (some x)).elim 0 total : ℕ)
  entries_eq : ∃ es, entries s (some x) = .ok es ∧ es.length = mSize s (some x)
    ∧ ∀ key, (es.filter (·.key = key)).map Node.value = m key

/-! ### Stops -/

/-- The number of the values that an operation may have to find memory for. -/
def needs (s : Memory ι K V) : Op ι V hash → ℤ
  | .insert x _ _ | .replace x _ _ | .operatorIndex x _ => mSize s (some x) + 1
  | .unite x y => mSize s (some x) + mSize s (some y)
  | .uniteHash x other => mSize s (some x) + other.q.size
  | _ => 0

/-- Why a run does not come to its end: an iterator that designates no entry, or a table that is
too large for the memory. -/
inductive Stops [Inhabited V] [BEq V] (globalSeed : ℕ) :
    Memory ι K V → List (Op ι V hash) → Fault → Prop
  | iterator {s x it ops} (h : ∀ d e, s.data (some x) = some d → entryAt d it ≠ .ok e) :
    Stops globalSeed s (.erase x it :: ops) .badIterator
  | memory {s op ops} (h : 2 ^ 61 ≤ needs s op) : Stops globalSeed s (op :: ops) .badAlloc
  | later {s op ops s₁ result e} (h : step globalSeed s op = .ok (s₁, result))
    (h_later : Stops globalSeed s₁ ops e) : Stops globalSeed s (op :: ops) e

/-! ### Runs -/

variable [Fintype ι] {s : Memory ι K V} {m : ι → K → List V}

/-- The objects hold maps, and the variable of `unite` is not in use. -/
structure Refines (hash : K → ℕ → ℕ) (s : Memory ι K V) (m : ι → K → List V) : Prop where
  counted : s.Counted
  copy_eq : s.view none = (none, 0)
  holds : ∀ x, HoldsMap hash (s.view (some x)) (m x)

omit [DecidableEq K] in
/-- An operation on one object. -/
theorem Refines.changes (h : Refines hash s m) {x : ι} {m_x : K → List V} {s' : Memory ι K V}
    (hchanges : Changes hash s (some x) m_x s') :
  Refines hash s' (Function.update m x m_x)
  := by
  refine ⟨hchanges.1, ?_, ?_⟩
  · rw [hchanges.view_of_ne (Option.some_ne_none x).symm]
    exact h.copy_eq
  · intro y
    by_cases hy : y = x
    · rw [hy, Function.update_self]
      exact hchanges.holds
    · rw [Function.update_of_ne hy,
        hchanges.view_of_ne (fun h => hy (Option.some.inj h))]
      exact h.holds y

theorem Refines.holdsLists (h : Refines hash s m) (x : ι) :
  HoldsLists s hash x (m x)
  := by
  have hx := h.holds x
  rw [Store.view] at hx
  cases hdata : s.data (some x) with
  | none =>
    rw [hdata] at hx
    obtain ⟨hnil, hzero⟩ := hx
    change mSize s (some x) = 0 at hzero
    constructor
    · intro key
      rw [values, hdata, hnil]
      rfl
    · intro d hd
      rw [hdata] at hd
      cases hd
    · rw [hdata, hzero]
      rfl
    · refine ⟨[], ?_, hzero.symm, ?_⟩
      · rw [entries, hdata]
        rfl
      · rw [hnil]
        exact fun _ => rfl
  | some d =>
    rw [hdata] at hx
    obtain ⟨hd, htotal⟩ := hx
    change mSize s (some x) = total d at htotal
    have hchains : HoldsChains hash d (m x) := Data.Represents.withRef hd d.ref
    constructor
    · intro key
      obtain ⟨c, hc, hfind, hfound⟩ := hchains.findBucket key
      rw [values, hdata]
      dsimp only
      rw [hfind, ok_bind]
      rcases hfound with ⟨-, hentry⟩ | ⟨hnil, hentry⟩
      · have hnode : d.node (.ofBucketIndex c) = some ⟨key, m x key⟩ := hentry
        rw [hnode]
        rfl
      · have hnode : d.node (.ofBucketIndex c) = none := hentry
        rw [hnode, hnil]
        rfl
    · intro d' hd' n hn
      rw [hdata] at hd'
      cases hd'
      exact (hchains.mem_nodes.mp hn).2
    · rw [hdata]
      exact htotal
    · obtain ⟨i, hbegin, hremaining, hi⟩ := hchains.begin_ends
      have hlength : (remaining d i).length = total d := by
        rw [hremaining, length_entriesOf]
        rfl
      refine ⟨entriesOf d.nodes, ?_, ?_, hchains.filter_entries⟩
      · rw [entries, hdata]
        dsimp only
        rw [hbegin, ok_bind, ← hremaining]
        apply hchains.entriesFrom_eq hi
        rw [htotal, hlength]
        exact Nat.le_refl _
      · rw [htotal, ← hlength, hremaining]

/-- Each operation does what it does to the maps. -/
theorem step_yields [Inhabited V] [BEq V] (h : Refines hash s m) (globalSeed : ℕ)
    (op : Op ι V hash) (ops : List (Op ι V hash)) :
  Yields (Stops globalSeed s (op :: ops))
    (fun r => ∃ m', MapStep m op r.2 m' ∧ Refines hash r.1 m')
    (step globalSeed s op)
  := by
  have hmemory : ∀ e, TooMany (needs s op) e → Stops globalSeed s (op :: ops) e := by
    rintro e ⟨rfl, hmany⟩
    exact .memory hmany
  cases op with
  | assign x y => exact ⟨_, rfl, h.changes (assign_changes h.counted (h.holds x) (h.holds y)).1⟩
  | clear x =>
    obtain ⟨hcounted, hview⟩ := h.counted.clear (some x) 0
    exact ⟨_, rfl, h.changes ⟨hcounted, _, hview, rfl, rfl⟩⟩
  | insert x key value =>
    have hemplace := emplace_yields h.counted (h.holds x) globalSeed key value
    apply (hemplace.mono hmemory fun _ h => h).bind
    rintro ⟨s', e⟩ ⟨hchanges, -, he⟩
    exact ⟨_, ⟨he, rfl⟩, h.changes hchanges⟩
  | replace x key value =>
    have hemplace := emplaceReplace_yields h.counted (h.holds x) globalSeed key value
    apply (hemplace.mono hmemory fun _ h => h).bind
    rintro ⟨s', e⟩ ⟨hchanges, he⟩
    exact ⟨_, ⟨he, rfl⟩, h.changes hchanges⟩
  | operatorIndex x key =>
    have hindex := operatorIndex_yields h.counted (h.holds x) globalSeed key
    apply (hindex.mono hmemory fun _ h => h).bind
    rintro ⟨s', value⟩ ⟨hchanges, hvalue⟩
    exact ⟨_, ⟨hvalue, rfl⟩, h.changes hchanges⟩
  | remove x key =>
    obtain ⟨s', heq, hchanges⟩ := remove_ends h.counted (h.holds x) globalSeed key
    rw [step, heq]
    exact ⟨_, ⟨rfl, rfl⟩, h.changes hchanges⟩
  | removeValue x key value =>
    obtain ⟨s', heq, hchanges⟩ :=
      removeValue_ends h.counted (h.holds x) globalSeed key value
    rw [step, heq]
    exact ⟨_, ⟨rfl, rfl⟩, h.changes hchanges⟩
  | take x key =>
    obtain ⟨s', heq, hchanges⟩ := take_ends h.counted (h.holds x) globalSeed key
    rw [step, heq]
    exact ⟨_, ⟨rfl, rfl⟩, h.changes hchanges⟩
  | erase x it =>
    apply ((erase_yields h.counted (h.holds x) globalSeed it).mono ?_ fun _ h => h).bind
    · rintro ⟨s', e, next⟩ ⟨he, hchanges, hnext⟩
      refine ⟨_, ⟨he, rfl, ?_⟩, h.changes hchanges⟩
      rw [Function.update_self]
      exact hnext
    · rintro e ⟨rfl, hinvalid⟩
      exact .iterator hinvalid
  | unite x y =>
    have hunite := unite_yields h.counted (h.holds x) (h.holds y) h.copy_eq globalSeed
    apply (hunite.mono hmemory fun _ h => h).bind
    rintro s' ⟨m_x, hunited, hchanges⟩
    exact ⟨_, ⟨m_x, hunited, rfl⟩, h.changes hchanges⟩
  | uniteHash x other =>
    have hunite := uniteHash_yields h.counted (h.holds x) globalSeed other
    apply (hunite.mono hmemory fun _ h => h).bind
    intro s' hchanges
    exact ⟨_, rfl, h.changes hchanges⟩

theorem run_yields [Inhabited V] [BEq V] (h : Refines hash s m) (globalSeed : ℕ)
    (ops : List (Op ι V hash)) :
  Yields (Stops globalSeed s ops)
    (fun r => ∃ m', MapRun m ops r.2 m' ∧ Refines hash r.1 m')
    (run globalSeed s ops)
  := by
  induction ops generalizing s m with
  | nil => exact ⟨m, .nil m, h⟩
  | cons op ops ih =>
    have hstep := step_yields h globalSeed op ops
    rw [run]
    cases heq : step globalSeed s op with
    | error e =>
      rw [heq] at hstep
      exact hstep
    | ok r =>
      rw [heq] at hstep
      obtain ⟨m₁, hm₁, hs₁⟩ := hstep
      apply ((ih hs₁).mono (fun e he => .later heq he) fun _ h => h).bind
      rintro ⟨s', results⟩ ⟨m', hm', hs'⟩
      exact ⟨m', .cons hm₁ hm', hs'⟩

omit [DecidableEq K] in
theorem refines_initial (hash : K → ℕ → ℕ) :
  Refines hash (initial ι K V) fun _ _ => []
  := by
  have howners (a : ℕ) : (initial ι K V).owners a = ∅ := by
    rw [Finset.eq_empty_iff_forall_notMem]
    intro x hx
    cases Store.mem_owners.mp hx
  refine ⟨⟨fun _ => ⟨0, 0, 0, 0, []⟩, ?_, fun a _ => howners a⟩, rfl, fun _ => ⟨rfl, rfl⟩⟩
  intro a
  rw [howners, if_pos rfl]
  rfl

/-- From objects that have not been used, every sequence of operations does what the same
operations do to maps from keys to lists, and the objects hold the maps then; unless an iterator
that is erased designates no entry, or a table would become too large to be allocated. -/
theorem run_lists [Inhabited V] [BEq V] (hash : K → ℕ → ℕ) (globalSeed : ℕ)
    (ops : List (Op ι V hash)) :
  (∃ s results m, run globalSeed (initial ι K V) ops = .ok (s, results)
      ∧ MapRun (fun _ _ => []) ops results m ∧ ∀ x, HoldsLists s hash x (m x))
    ∨ ∃ e, run globalSeed (initial ι K V) ops = .error e
      ∧ Stops globalSeed (initial ι K V) ops e
  := by
  rcases (run_yields (refines_initial hash) globalSeed ops).cases with
    ⟨⟨s, results⟩, h_eq, m, h_run, h_s⟩ | ⟨e, h_eq, h_e⟩
  · exact .inl ⟨s, results, m, h_eq, h_run, h_s.holdsLists⟩
  · exact .inr ⟨e, h_eq, h_e⟩

end QMultiHash
