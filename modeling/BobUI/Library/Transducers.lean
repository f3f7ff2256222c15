import Mathlib.Data.List.Basic

/-!
# Machines that read one symbol at a time

A machine reads symbols and writes others.  What it writes for a sequence does not depend on how
the sequence is split, and neither does what a function writes that reads whole sequences as the
machine does, call after call.
-/

namespace Transducer

variable {σ τ α β : Type*}

/-- What a machine writes for a sequence, and its state after it. -/
def transduce (step : σ → α → List β × σ) : σ → List α → List β × σ
  | s, [] => ([], s)
  | s, a :: l =>
    ((step s a).1 ++ (transduce step (step s a).2 l).1, (transduce step (step s a).2 l).2)

variable {step : σ → α → List β × σ}

theorem transduce_append (s : σ) (l₁ l₂ : List α) :
  transduce step s (l₁ ++ l₂)
    = ((transduce step s l₁).1 ++ (transduce step (transduce step s l₁).2 l₂).1,
      (transduce step (transduce step s l₁).2 l₂).2)
  := by
  induction l₁ generalizing s with
  | nil => rfl
  | cons a l₁ ih =>
    rw [List.cons_append, transduce, transduce, ih, List.append_assoc]

/-- What successive calls write, and the state after them. -/
def runCalls (call : τ → List α → List β × τ) : τ → List (List α) → List β × τ
  | t, [] => ([], t)
  | t, l :: calls =>
    ((call t l).1 ++ (runCalls call (call t l).2 calls).1, (runCalls call (call t l).2 calls).2)

/-- The calls read as the machine does. -/
structure Simulates (step : σ → α → List β × σ) (call : τ → List α → List β × τ)
    (rel : σ → τ → Prop) : Prop where
  output : ∀ {s t}, rel s t → ∀ l, (call t l).1 = (transduce step s l).1
  next : ∀ {s t}, rel s t → ∀ l, rel (transduce step s l).2 (call t l).2

variable {call : τ → List α → List β × τ} {rel : σ → τ → Prop}

/-- However a sequence is split, the calls write what the machine writes for it. -/
theorem Simulates.runCalls (h : Simulates step call rel) {s : σ} {t : τ} (hrel : rel s t)
    (calls : List (List α)) :
  (runCalls call t calls).1 = (transduce step s calls.flatten).1
    ∧ rel (transduce step s calls.flatten).2 (runCalls call t calls).2
  := by
  induction calls generalizing s t with
  | nil => exact ⟨rfl, hrel⟩
  | cons l calls ih =>
    obtain ⟨houtput, hnext⟩ := ih (h.next hrel l)
    rw [List.flatten_cons, transduce_append, Transducer.runCalls, houtput, h.output hrel]
    use rfl

/-! ### Blocks -/

section Blocks

variable {ε : Type*} (n : ℕ) (resolve : List α → ε) (first emit : ε → List α → List β)

/-- A machine that collects blocks of `n` symbols.  The first block sets a mode, in which it and
the following blocks are written. -/
def blockStep (s : Option ε × List α) (a : α) : List β × Option ε × List α :=
  if (s.2 ++ [a]).length < n then ([], s.1, s.2 ++ [a])
  else match s.1 with
    | none => (first (resolve (s.2 ++ [a])) (s.2 ++ [a]), some (resolve (s.2 ++ [a])), [])
    | some mode => (emit mode (s.2 ++ [a]), some mode, [])

variable {n resolve first emit}

/-- Symbols that do not complete a block. -/
theorem transduce_short {mode : Option ε} {pending l : List α} (h : (pending ++ l).length < n) :
  transduce (blockStep n resolve first emit) (mode, pending) l = ([], mode, pending ++ l)
  := by
  induction l generalizing pending with
  | nil => rw [transduce, List.append_nil]
  | cons a l ih =>
    have hnext : blockStep n resolve first emit (mode, pending) a
        = ([], mode, pending ++ [a]) := by
      apply if_pos
      simp only [List.length_append, List.length_cons, List.length_nil] at h ⊢
      omega
    rw [transduce, hnext, ih (by rwa [List.append_assoc]), List.append_assoc]
    rfl

/-- Symbols that complete the block. -/
theorem transduce_block {mode : Option ε} {pending block rest : List α}
    (hlength : block.length = n) (hpending : pending.length < n) {l : List α}
    (h : pending ++ l = block ++ rest) :
  transduce (blockStep n resolve first emit) (mode, pending) l
    = match mode with
      | none => (first (resolve block) block
          ++ (transduce (blockStep n resolve first emit) (some (resolve block), []) rest).1,
        (transduce (blockStep n resolve first emit) (some (resolve block), []) rest).2)
      | some mode => (emit mode block
          ++ (transduce (blockStep n resolve first emit) (some mode, []) rest).1,
        (transduce (blockStep n resolve first emit) (some mode, []) rest).2)
  := by
  obtain ⟨l₁, rfl, rfl⟩ : ∃ l₁, block = pending ++ l₁ ∧ l = l₁ ++ rest := by
    rcases List.append_eq_append_iff.mp h with hleft | ⟨l₁, hpending', -⟩
    · exact hleft
    · rw [hpending', List.length_append] at hpending
      omega
  rcases List.eq_nil_or_concat' l₁ with rfl | ⟨l₂, a, rfl⟩
  · rw [List.append_nil] at hlength
    omega
  have hshort : (pending ++ l₂).length < n := by
    simp only [List.length_append, List.length_cons, List.length_nil] at hlength ⊢
    omega
  have hfull : ¬((pending ++ l₂) ++ [a]).length < n := by
    rw [List.append_assoc, hlength]
    exact Nat.lt_irrefl n
  rw [List.append_assoc, transduce_append, transduce_short hshort, List.nil_append,
    List.singleton_append, transduce, blockStep, if_neg hfull, List.append_assoc]
  cases mode with
  | none => rfl
  | some mode => rfl

variable {pending block rest l : List α}

theorem transduce_first (hlength : block.length = n) (hpending : pending.length < n)
    (h : pending ++ l = block ++ rest) :
  transduce (blockStep n resolve first emit) (none, pending) l
    = (first (resolve block) block
        ++ (transduce (blockStep n resolve first emit) (some (resolve block), []) rest).1,
      (transduce (blockStep n resolve first emit) (some (resolve block), []) rest).2)
  := transduce_block hlength hpending h

theorem transduce_next {mode : ε} (hlength : block.length = n) (hpending : pending.length < n)
    (h : pending ++ l = block ++ rest) :
  transduce (blockStep n resolve first emit) (some mode, pending) l
    = (emit mode block ++ (transduce (blockStep n resolve first emit) (some mode, []) rest).1,
      (transduce (blockStep n resolve first emit) (some mode, []) rest).2)
  := transduce_block hlength hpending h

end Blocks

end Transducer
