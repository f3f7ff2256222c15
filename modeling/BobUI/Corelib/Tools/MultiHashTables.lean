import BobUI.Corelib.Tools.MultiHash
import Mathlib.Algebra.BigOperators.Group.List.Basic
import Mathlib.Algebra.GroupWithZero.Nat

/-!
# Tables of chains

A table holds a map from keys to lists of values: the chain of a key is its list, and a key
without values has no node.  The table then determines the lists, the number of all values, and
what its iteration yields.
-/

open QHashPrivate

namespace QMultiHash

variable {K V : Type}

/-! ### The lists of a table -/

/-- What is stored for a list of values. -/
def stored (chain : List V) : Option (List V) :=
  if chain.isEmpty then none else some chain

@[simp]
theorem stored_nil :
  stored ([] : List V) = none
  := rfl

variable {chain : List V} {key : K}

theorem stored_of_ne (h : chain ≠ []) :
  stored chain = some chain
  := by
  rw [stored, List.isEmpty_eq_false_iff.mpr h]
  rfl

theorem stored_eq_some {c : List V} :
  stored chain = some c ↔ c = chain ∧ c ≠ []
  := by
  cases chain with
  | nil => simp
  | cons v chain =>
    rw [stored_of_ne (List.cons_ne_nil v chain), Option.some.injEq]
    constructor
    · rintro rfl
      exact ⟨rfl, List.cons_ne_nil v chain⟩
    · rintro ⟨rfl, -⟩
      rfl

theorem stored_eq_none :
  stored chain = none ↔ chain = []
  := by
  cases chain with
  | nil => simp
  | cons v chain => simp [stored]

theorem stored_update [DecidableEq K] (m : K → List V) (key : K) (chain : List V) :
  (fun k => stored (Function.update m key chain k))
    = Function.update (fun k => stored (m k)) key (stored chain)
  := by
  funext k
  by_cases h : k = key
  · rw [h, Function.update_self, Function.update_self]
  · rw [Function.update_of_ne h, Function.update_of_ne h]

/-- The chains of a table are the lists of a map. -/
def HoldsChains (hash : K → ℕ → ℕ) (d : Data K (List V)) (m : K → List V) : Prop :=
  d.Represents hash fun key => stored (m key)

/-- The number of the values in all chains. -/
def total (d : Data K (List V)) : ℕ :=
  (d.nodes.map fun n => n.value.length).sum

variable {hash : K → ℕ → ℕ} {d d' : Data K (List V)} {m : K → List V}

theorem HoldsChains.mem_nodes (h : HoldsChains hash d m) {n : Node K (List V)} :
  n ∈ d.nodes ↔ n.value = m n.key ∧ n.value ≠ []
  := by
  obtain ⟨key, chain⟩ := n
  rw [← h.apply_eq_some, stored_eq_some]

theorem HoldsChains.entry_eq (h : HoldsChains hash d m) {c : ℕ} (hc : c < d.numBuckets)
    {n : Node K (List V)} (hn : d.entry c = some n) :
  n.value = m n.key ∧ n.value ≠ []
  := h.mem_nodes.mp (h.toLayout.mem_nodes.mpr ⟨c, hc, hn⟩)

theorem HoldsChains.nodup (h : HoldsChains hash d m) :
  d.nodes.Nodup
  := List.Nodup.of_map Node.key h.toInOrder.nodup

variable [DecidableEq K]

/-- The nodes of a key. -/
theorem HoldsChains.filter_key (h : HoldsChains hash d m) (key : K) :
  d.nodes.filter (·.key = key) = if m key = [] then [] else [⟨key, m key⟩]
  := by
  split
  next hnil =>
    rw [List.filter_eq_nil_iff]
    intro n hn hkey
    obtain ⟨hvalue, hne⟩ := h.mem_nodes.mp hn
    rw [of_decide_eq_true hkey, hnil] at hvalue
    exact hne hvalue
  next hne =>
    rw [← List.perm_singleton, List.perm_ext_iff_of_nodup (h.nodup.filter _)
      (List.nodup_singleton _)]
    rintro ⟨k, chain⟩
    rw [List.mem_filter, List.mem_singleton, decide_eq_true_iff, h.mem_nodes, Node.mk.injEq]
    constructor
    · rintro ⟨⟨hchain, -⟩, rfl⟩
      exact ⟨rfl, hchain⟩
    · rintro ⟨rfl, rfl⟩
      exact ⟨⟨rfl, hne⟩, rfl⟩

/-- The values of a key, and those of the other keys. -/
theorem HoldsChains.total_split (h : HoldsChains hash d m) (key : K) :
  total d = (m key).length
    + ((d.nodes.filter (fun n => !decide (n.key = key))).map fun n => n.value.length).sum
  := by
  have hperm := (List.filter_append_perm (fun n => decide (n.key = key)) d.nodes).map
    fun n : Node K (List V) => n.value.length
  rw [total, ← hperm.sum_eq, List.map_append, List.sum_append, h.filter_key]
  congr 1
  split
  next hnil =>
    rw [hnil]
    rfl
  next => rfl

/-- Where the list of one key has changed, the number of the values has changed by it. -/
theorem HoldsChains.total_update (h : HoldsChains hash d m)
    (h' : HoldsChains hash d' (Function.update m key chain)) :
  total d' + (m key).length = total d + chain.length
  := by
  have hothers : (d'.nodes.filter (fun n => !decide (n.key = key))).Perm
      (d.nodes.filter (fun n => !decide (n.key = key))) := by
    rw [List.perm_ext_iff_of_nodup (h'.nodup.filter _) (h.nodup.filter _)]
    intro n
    rw [List.mem_filter, List.mem_filter, h.mem_nodes, h'.mem_nodes]
    apply and_congr_left
    intro hkey
    have hne : n.key ≠ key := by
      simpa using hkey
    rw [Function.update_of_ne hne]
  rw [h.total_split key, h'.total_split key, Function.update_self,
    (hothers.map fun n => n.value.length).sum_eq]
  omega

omit [DecidableEq K] in
/-- A table has at most as many nodes as values. -/
theorem HoldsChains.size_le (h : HoldsChains hash d m) :
  d.size ≤ total d
  := by
  have hlength := List.length_le_sum_of_one_le (d.nodes.map fun n => n.value.length) (by
    intro n hn
    obtain ⟨node, hnode, rfl⟩ := List.mem_map.mp hn
    exact List.length_pos_iff.mpr (h.mem_nodes.mp hnode).2)
  rwa [List.length_map, ← h.toWellFormed.size_eq] at hlength

/-! ### What the operations do to the lists -/

theorem HoldsChains.findBucket (h : HoldsChains hash d m) (key : K) :
  ∃ c < d.numBuckets, d.findBucket hash key = .ok (.ofBucketIndex c)
    ∧ (m key ≠ [] ∧ d.entry c = some ⟨key, m key⟩ ∨ m key = [] ∧ d.entry c = none)
  := by
  obtain ⟨c, hc, hfind, ⟨chain, hentry, hchain⟩ | ⟨hunused, hnone, -⟩⟩ :=
    Data.Represents.findBucket h key
  · obtain ⟨rfl, hne⟩ := stored_eq_some.mp hchain
    exact ⟨c, hc, hfind, .inl ⟨hne, hentry⟩⟩
  · exact ⟨c, hc, hfind, .inr ⟨stored_eq_none.mp hnone, hunused⟩⟩

/-- The chain of a node is replaced. -/
theorem HoldsChains.replace (h : HoldsChains hash d m) {c : ℕ} (hc : c < d.numBuckets)
    (hentry : d.entry c = some ⟨key, m key⟩) (hchain : chain ≠ []) :
  HoldsChains hash (d.put (.ofBucketIndex c) (some ⟨key, chain⟩)) (Function.update m key chain)
  := by
  have hreplace := Data.Represents.replace h hc hentry chain
  rwa [← stored_of_ne hchain, ← stored_update] at hreplace

/-- The node of a key is erased, whatever its chain has become. -/
theorem HoldsChains.erase (h : HoldsChains hash d m) {c : ℕ} (hc : c < d.numBuckets)
    (hentry : d.entry c = some ⟨key, m key⟩) (chain : List V) :
  ∃ d' : Data K (List V),
    (d.put (.ofBucketIndex c) (some ⟨key, chain⟩)).erase hash (.ofBucketIndex c) = .ok d'
      ∧ HoldsChains hash d' (Function.update m key []) ∧ d'.numBuckets = d.numBuckets
  := by
  have hreplace := Data.Represents.replace h hc hentry chain
  have hput : (d.put (.ofBucketIndex c) (some ⟨key, chain⟩)).entry c = some ⟨key, chain⟩ := by
    rw [Data.entry_put h.toLayout hc, Function.update_self]
  obtain ⟨d', heq, hd', -, hbuckets⟩ := hreplace.erase hc hput
  refine ⟨d', heq, ?_, hbuckets⟩
  rw [Function.update_idem, ← stored_nil, ← stored_update] at hd'
  exact hd'

theorem HoldsChains.erase_node (h : HoldsChains hash d m) {c : ℕ} (hc : c < d.numBuckets)
    (hentry : d.entry c = some ⟨key, m key⟩) :
  ∃ d' : Data K (List V), d.erase hash (.ofBucketIndex c) = .ok d'
    ∧ HoldsChains hash d' (Function.update m key [])
  := by
  obtain ⟨d', heq, hd', -⟩ := Data.Represents.erase h hc hentry
  refine ⟨d', heq, ?_⟩
  rw [← stored_nil, ← stored_update] at hd'
  exact hd'

/-- A key is found with its chain, or the bucket for a node that the key gets. -/
theorem HoldsChains.findOrInsert (h : HoldsChains hash d m) (key : K) :
  Yields (NoMemory (d.size + 1))
    (fun r => ∃ c, r.1 = .ofBucketIndex c
      ∧ (r.2.1 = true ∧ r.2.2 = d ∧ c < d.numBuckets ∧ m key ≠ []
          ∧ d.entry c = some ⟨key, m key⟩
        ∨ r.2.1 = false ∧ m key = [] ∧ ∀ chain ≠ [], ∃ d' : Data K (List V),
          r.2.2.insert (.ofBucketIndex c) ⟨key, chain⟩ = .ok d' ∧ c < d'.numBuckets
            ∧ HoldsChains hash d' (Function.update m key chain)
            ∧ d'.entry c = some ⟨key, chain⟩))
    (d.findOrInsert hash key)
  := by
  apply (QHash.findOrInsert_yields h key).mono fun e he => he
  rintro ⟨_, initialized, d'⟩ ⟨c, rfl, ⟨rfl, rfl, hc, chain, hentry⟩
    | ⟨rfl, d₁, rfl, hd₁, -, hc, hunused, hnone, hpassed, hroom⟩⟩
  · obtain ⟨hchain, hne⟩ := HoldsChains.entry_eq h hc hentry
    change chain = m key at hchain
    subst hchain
    exact ⟨c, rfl, .inl ⟨rfl, rfl, hc, hne, hentry⟩⟩
  · refine ⟨c, rfl, .inr ⟨rfl, stored_eq_none.mp hnone, ?_⟩⟩
    intro chain hchain
    have hstore := hd₁.store hc hunused hpassed hnone hroom chain
    rw [← stored_of_ne hchain, ← stored_update] at hstore
    exact ⟨_, Data.insert_eq hunused, hc, hstore, hd₁.toLayout.entry_stored hc ⟨key, chain⟩⟩

/-! ### Iteration -/

/-- The entries of nodes, chain by chain. -/
def entriesOf (nodes : List (Node K (List V))) : List (Node K V) :=
  nodes.flatMap fun n => n.value.map (⟨n.key, ·⟩)

/-- The nodes from a bucket on. -/
def nodesFrom {W : Type} (d : Data K W) (bucket : ℕ) : List (Node K W) :=
  (d.spans.flatten.drop bucket).reduceOption

/-- The nodes from an iterator of the table on. -/
def nodesOf {W : Type} (d : Data K W) : Option (Data.Iterator K W) → List (Node K W)
  | none => []
  | some it => it.node :: nodesFrom d (it.bucket + 1)

/-- The entries from an iterator on. -/
def remaining (d : Data K (List V)) : Option Iterator → List (Node K V)
  | none => []
  | some it =>
    match d.entry it.bucket with
    | none => []
    | some n =>
      (n.value.drop it.e).map (⟨n.key, ·⟩) ++ entriesOf (nodesFrom d (it.bucket + 1))

/-- An iterator designates an entry. -/
def Designates (d : Data K (List V)) (it : Iterator) : Prop :=
  it.bucket < d.numBuckets ∧ ∃ n, d.entry it.bucket = some n ∧ it.e < n.value.length

omit [DecidableEq K] in
theorem length_entriesOf (nodes : List (Node K (List V))) :
  (entriesOf nodes).length = (nodes.map fun n => n.value.length).sum
  := by
  rw [entriesOf, List.length_flatMap]
  simp

/-- Each entry of a key stands once in the list of all entries, in the order of the chain. -/
theorem HoldsChains.filter_entries (h : HoldsChains hash d m) (key : K) :
  ((entriesOf d.nodes).filter (·.key = key)).map Node.value = m key
  := by
  have hfilter : (entriesOf d.nodes).filter (·.key = key)
      = entriesOf (d.nodes.filter (·.key = key)) := by
    unfold entriesOf
    rw [List.filter_flatMap]
    induction d.nodes with
    | nil => rfl
    | cons n nodes ih =>
      rw [List.flatMap_cons, ih, List.filter_cons]
      by_cases hkey : n.key = key
      · simp [hkey]
      · simp [hkey]
  rw [hfilter, h.filter_key]
  split
  next hnil =>
    rw [hnil]
    rfl
  next => simp [entriesOf, Function.comp_def]

section Layout

variable {W : Type} {t : Data K W} (h : t.Layout)

include h

omit [DecidableEq K]

theorem nodesFrom_of_lt {b : ℕ} (hb : b < t.numBuckets) :
  nodesFrom t b = (t.entry b).toList ++ nodesFrom t (b + 1)
  := by
  have hlength : b < t.spans.flatten.length := by
    rwa [h.length_flatten]
  have hentry := h.getElem?_flatten hb
  rw [List.getElem?_eq_getElem hlength, Option.some.injEq] at hentry
  rw [nodesFrom, List.drop_eq_getElem_cons hlength, hentry]
  cases t.entry b with
  | none => rfl
  | some n => rfl

theorem nodesFrom_of_le {b : ℕ} (hb : t.numBuckets ≤ b) :
  nodesFrom t b = []
  := by
  rw [nodesFrom, List.drop_eq_nil_of_le (by rwa [h.length_flatten])]
  rfl

/-- The increment of an iterator comes to the next node. -/
theorem nextIterator_ends {turns bucket : ℕ} (hbucket : bucket < t.numBuckets)
    (hturns : t.numBuckets ≤ bucket + turns) :
  ∃ i, t.nextIterator turns bucket = .ok i ∧ nodesFrom t (bucket + 1) = nodesOf t i
    ∧ ∀ it ∈ i, it.bucket < t.numBuckets ∧ t.entry it.bucket = some it.node
  := by
  induction turns generalizing bucket with
  | zero => omega
  | succ turns ih =>
    rw [Data.nextIterator]
    split
    next hlast =>
      exact ⟨none, rfl, nodesFrom_of_le h (Nat.le_of_eq hlast.symm), by rintro it ⟨⟩⟩
    next hlast =>
      have hnext : bucket + 1 < t.numBuckets := by omega
      rw [nodesFrom_of_lt h hnext]
      cases hentry : t.entry (bucket + 1) with
      | none =>
        have hnode : t.node (.ofBucketIndex (bucket + 1)) = none := hentry
        rw [hnode, Option.toList_none, List.nil_append]
        exact ih hnext (by omega)
      | some n =>
        have hnode : t.node (.ofBucketIndex (bucket + 1)) = some n := hentry
        rw [hnode]
        refine ⟨some ⟨bucket + 1, n⟩, rfl, rfl, ?_⟩
        rintro _ ⟨⟩
        exact ⟨hnext, hentry⟩

theorem tableBegin_ends :
  ∃ i, tableBegin t = .ok i ∧ t.nodes = nodesOf t i
    ∧ ∀ it ∈ i, it.bucket < t.numBuckets ∧ t.entry it.bucket = some it.node
  := by
  have hnodes : t.nodes = (t.entry 0).toList ++ nodesFrom t 1 :=
    nodesFrom_of_lt h h.numBuckets_pos
  rw [hnodes]
  unfold tableBegin
  cases hentry : t.entry 0 with
  | none =>
    have hnode : t.node (.ofBucketIndex 0) = none := hentry
    rw [hnode]
    exact nextIterator_ends h h.numBuckets_pos (Nat.le_add_left _ 0)
  | some n =>
    have hnode : t.node (.ofBucketIndex 0) = some n := hentry
    rw [hnode]
    refine ⟨some ⟨0, n⟩, rfl, rfl, ?_⟩
    rintro _ ⟨⟩
    exact ⟨h.numBuckets_pos, hentry⟩

end Layout

omit [DecidableEq K] in
/-- An iterator of the table becomes one that stands at the first entry of the node. -/
theorem HoldsChains.iterator_ends (h : HoldsChains hash d m) {i : Data.Iterator K (List V)}
    (hi : i.bucket < d.numBuckets ∧ d.entry i.bucket = some i.node) :
  iterator i = .ok ⟨i.bucket, 0⟩ ∧ Designates d ⟨i.bucket, 0⟩
    ∧ remaining d (some ⟨i.bucket, 0⟩) = entriesOf (nodesOf d (some i))
  := by
  obtain ⟨hbucket, hentry⟩ := hi
  obtain ⟨-, hne⟩ := h.entry_eq hbucket hentry
  refine ⟨?_, ⟨hbucket, i.node, hentry, List.length_pos_iff.mpr hne⟩, ?_⟩
  · rw [iterator, List.isEmpty_eq_false_iff.mpr hne]
    rfl
  · simp only [remaining, hentry]
    rfl

omit [DecidableEq K] in
theorem HoldsChains.ofIterator (h : HoldsChains hash d m) {i : Option (Data.Iterator K (List V))}
    (hi : ∀ it ∈ i, it.bucket < d.numBuckets ∧ d.entry it.bucket = some it.node) :
  ∃ i', (match i with
      | none => pure none
      | some it => some <$> iterator it : Except Fault (Option Iterator)) = .ok i'
    ∧ remaining d i' = entriesOf (nodesOf d i) ∧ ∀ it ∈ i', Designates d it
  := by
  cases i with
  | none => exact ⟨none, rfl, rfl, fun it hit => nomatch hit⟩
  | some it =>
    obtain ⟨heq, hdesignates, hremaining⟩ := h.iterator_ends (hi it rfl)
    refine ⟨some ⟨it.bucket, 0⟩, ?_, hremaining, ?_⟩
    · dsimp only
      rw [heq]
      rfl
    · rintro _ ⟨⟩
      exact hdesignates

omit [DecidableEq K] in
/-- An iterator that leaves a node comes to the entries of the nodes behind it. -/
theorem HoldsChains.nextNode_ends (h : HoldsChains hash d m) {bucket : ℕ}
    (hbucket : bucket < d.numBuckets) :
  ∃ i, nextNode d bucket = .ok i ∧ remaining d i = entriesOf (nodesFrom d (bucket + 1))
    ∧ ∀ it ∈ i, Designates d it
  := by
  obtain ⟨i, hnext, hnodes, hi⟩ :=
    nextIterator_ends h.toLayout hbucket (Nat.le_add_left _ bucket)
  rw [nextNode, hnext, hnodes]
  exact h.ofIterator hi

omit [DecidableEq K] in
theorem HoldsChains.begin_ends (h : HoldsChains hash d m) :
  ∃ i, begin d = .ok i ∧ remaining d i = entriesOf d.nodes ∧ ∀ it ∈ i, Designates d it
  := by
  obtain ⟨i, hbegin, hnodes, hi⟩ := tableBegin_ends h.toLayout
  rw [begin, hbegin, hnodes]
  exact h.ofIterator hi

omit [DecidableEq K] in
/-- The increment of an iterator leaves out the entry that it has designated. -/
theorem HoldsChains.next_ends (h : HoldsChains hash d m) {it : Iterator}
    (hit : Designates d it) :
  ∃ entry i, entryAt d it = .ok entry ∧ next d it = .ok i
    ∧ remaining d (some it) = entry :: remaining d i ∧ ∀ it' ∈ i, Designates d it'
  := by
  obtain ⟨hbucket, n, hentry, he⟩ := hit
  have hnode : d.node (.ofBucketIndex it.bucket) = some n := hentry
  have hat : entryAt d it = .ok ⟨n.key, n.value[it.e]⟩ := by
    rw [entryAt, hnode]
    dsimp only
    rw [List.getElem?_eq_getElem he]
  have hdrop : (n.value.drop it.e).map (fun v => (⟨n.key, v⟩ : Node K V))
      = ⟨n.key, n.value[it.e]⟩ :: (n.value.drop (it.e + 1)).map (fun v => ⟨n.key, v⟩) := by
    rw [List.drop_eq_getElem_cons he, List.map_cons]
  unfold next
  rw [hnode]
  dsimp only
  rw [if_neg (Nat.not_le_of_lt he)]
  by_cases hmore : it.e + 1 < n.value.length
  · refine ⟨_, some ⟨it.bucket, it.e + 1⟩, hat, if_pos hmore, ?_, ?_⟩
    · simp only [remaining, hentry, hdrop]
      rfl
    · rintro _ ⟨⟩
      exact ⟨hbucket, n, hentry, hmore⟩
  · obtain ⟨i, hnext, hremaining, hi⟩ := h.nextNode_ends hbucket
    refine ⟨_, i, hat, by rw [if_neg hmore, hnext], ?_, hi⟩
    rw [hremaining, remaining, hentry]
    dsimp only
    rw [hdrop, List.drop_eq_nil_of_le (by omega)]
    rfl

omit [DecidableEq K] in
/-- The loop from an iterator to the end yields the entries from there on. -/
theorem HoldsChains.entriesFrom_eq (h : HoldsChains hash d m) {turns : ℕ} {i : Option Iterator}
    (hi : ∀ it ∈ i, Designates d it) (hturns : (remaining d i).length ≤ turns) :
  entriesFrom d turns i = .ok (remaining d i)
  := by
  induction turns generalizing i with
  | zero =>
    cases i with
    | none => rfl
    | some it =>
      obtain ⟨entry, i, -, -, hremaining, -⟩ := h.next_ends (hi it rfl)
      rw [hremaining] at hturns
      exact absurd hturns (Nat.not_succ_le_zero _)
  | succ turns ih =>
    cases i with
    | none => rfl
    | some it =>
      obtain ⟨entry, i, hat, hnext, hremaining, hi'⟩ := h.next_ends (hi it rfl)
      rw [hremaining, List.length_cons] at hturns
      rw [entriesFrom, hat, hnext, hremaining]
      change entriesFrom d turns i >>= _ = _
      rw [ih hi' (Nat.le_of_succ_le_succ hturns)]
      rfl

end QMultiHash
