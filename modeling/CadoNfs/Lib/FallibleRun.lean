import Mathlib.Tactic.Common

/-!
# Computations that may stop with an error

What holds after a computation that ends, and which errors it may stop with.

Main results:

- Theorem `Ends.bind`: the rule of a sequence.
- Theorem `Ends.foldlM_range`: the rule of a loop that counts.
-/

namespace CadoNfs

universe u v

variable {ε : Type u} {α β σ : Type v} {Good : α → Prop} {Bad : ε → Prop}

/-- Either the computation ends in a `Good` value, or it stops with a `Bad`
error. -/
inductive Ends (Good : α → Prop) (Bad : ε → Prop) : Except ε α → Prop
  | ok {a : α} (h : Good a) : Ends Good Bad (.ok a)
  | error {e : ε} (h : Bad e) : Ends Good Bad (.error e)

theorem Ends.mono {Good' : α → Prop} {Bad' : ε → Prop} {x : Except ε α}
    (h : Ends Good Bad x) (hgood : ∀ a, Good a → Good' a) (hbad : ∀ e, Bad e → Bad' e) :
    Ends Good' Bad' x := by
  cases h with
  | ok ha => exact .ok (hgood _ ha)
  | error he => exact .error (hbad _ he)

/-- One computation after the other. -/
theorem Ends.bind {Good' : β → Prop} {x : Except ε α} {f : α → Except ε β}
    (h : Ends Good Bad x) (hf : ∀ a, Good a → Ends Good' Bad (f a)) :
    Ends Good' Bad (x >>= f) := by
  cases h with
  | ok ha => exact hf _ ha
  | error he => exact .error he

theorem Ends.mapError {ε' : Type u} {Bad' : ε' → Prop} {x : Except ε α} {f : ε → ε'}
    (h : Ends Good Bad x) (hbad : ∀ e, Bad e → Bad' (f e)) : Ends Good Bad' (x.mapError f) := by
  cases h with
  | ok ha => exact .ok ha
  | error he => exact .error (hbad _ he)

theorem Ends.exists_ok {x : Except ε α} (h : Ends Good Bad x) (hbad : ∀ e, ¬Bad e) :
    ∃ a, x = .ok a ∧ Good a := by
  cases h with
  | ok ha => exact ⟨_, rfl, ha⟩
  | error he => exact absurd he (hbad _)

/-- A loop that counts: an invariant that every pass carries from its index to the next one.  The
errors of a pass are among those of the whole loop. -/
theorem Ends.foldlM_range {motive : ℕ → σ → Prop} {body : σ → ℕ → Except ε σ} {n : ℕ} {s : σ}
    (hzero : motive 0 s)
    (hstep : ∀ i < n, ∀ s, motive i s → Ends (motive (i + 1)) Bad (body s i)) :
    Ends (motive n) Bad ((List.range n).foldlM body s) := by
  induction n with
  | zero => exact .ok hzero
  | succ n ih =>
    rw [List.range_succ, List.foldlM_append]
    refine (ih fun i hi => hstep i (by omega)).bind fun s' hs' => ?_
    rw [List.foldlM_cons]
    exact (hstep n n.lt_succ_self s' hs').bind fun _ h => .ok h

end CadoNfs
