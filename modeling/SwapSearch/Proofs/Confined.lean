import SwapSearch.Failure

/-!
# SwapSearch — failures that are foreseen

A computation that can break off in many ways is often known to break off in a few of
them only. `Confined` says which, and what is known of the result if there is one. It
promises neither a result nor a failure, so it composes along binds without any
conditions under which the parts succeed.

The failures that no precondition of the library rules out are its *faults*: those of
arithmetic, of indexing and of memory.

## Results

* `Confined.bind`   — one computation after the other.
* `Confined.foldlM` — a fold, by what its steps keep.
-/

namespace SwapSearch

namespace Breach

/-- A fault of arithmetic, of indexing or of memory. -/
def isFault : Breach → Bool
  | .overflow | .outOfBounds | .equalPositions | .divisionByZero | .emptyRange | .capacity => true
  | .brokenBijection | .archiveDimensions | .leafCapacity | .eliteCapacity | .unequalParents
  | .cutPoints | .emptyParents | .emptyObjectives | .weightCount | .solutionSize | .emptyPool
  | .loneParent => false

end Breach

/-- Whatever goes wrong satisfies `E`, and the result, if there is one, satisfies `Q`. -/
structure Confined {ε β : Type} (E : ε → Prop) (x : Except ε β) (Q : β → Prop) : Prop where
  error : ∀ e, x = .error e → E e
  result : ∀ b, x = .ok b → Q b

namespace Confined

variable {ε β γ : Type} {E : ε → Prop} {Q : β → Prop} {R : γ → Prop} {x : Except ε β}

theorem ok {b : β} (h : Q b) : Confined E (.ok b) Q where
  error _ he := nomatch he
  result b' hb := by
    obtain rfl := Except.ok.inj hb
    exact h

theorem fail {e : ε} (h : E e) : Confined E (.error e) Q where
  error e' he := by
    obtain rfl := Except.error.inj he
    exact h
  result _ hb := nomatch hb

/-- One computation after the other. -/
theorem bind {f : β → Except ε γ} (hx : Confined E x Q) (hf : ∀ b, Q b → Confined E (f b) R) :
    Confined E (x >>= f) R := by
  cases x with
  | error e => exact fail (hx.error e rfl)
  | ok b => exact hf b (hx.result b rfl)

/-- One computation after another that is known to succeed. -/
theorem bind_ok {f : β → Except ε γ} {b : β} (hx : x = .ok b) (hf : Confined E (f b) R) :
    Confined E (x >>= f) R := by
  rw [hx]
  exact hf

theorem imp {Q' : β → Prop} (hx : Confined E x Q) (h : ∀ b, Q b → Q' b) : Confined E x Q' :=
  ⟨hx.error, fun b hb => h b (hx.result b hb)⟩

/-- What is known of the result anyway. -/
theorem and {P : β → Prop} (hx : Confined E x Q) (h : ∀ b, x = .ok b → P b) :
    Confined E x fun b => Q b ∧ P b :=
  ⟨hx.error, fun b hb => ⟨hx.result b hb, h b hb⟩⟩

/-- The result, if there is one, is what the computation gives. -/
theorem known (hx : Confined E x Q) : Confined E x fun b => x = .ok b :=
  ⟨hx.error, fun _ hb => hb⟩

theorem mapError {δ : Type} {D : δ → Prop} {f : ε → δ} (hx : Confined E x Q)
    (h : ∀ e, E e → D (f e)) : Confined D (x.mapError f) Q := by
  cases x with
  | error e => exact fail (h e (hx.error e rfl))
  | ok b => exact ok (hx.result b rfl)

/-- A computation that can only break a precondition, as a part of one that can fail otherwise. -/
theorem lift {E : Breach → Prop} {D : Failure → Prop} {x : Except Breach β}
    (hx : Confined E x Q) (h : ∀ cause, E cause → D (.broken cause)) :
    Confined D (liftM x : Except Failure β) Q :=
  hx.mapError h

/-- What every step of a fold keeps, the fold keeps. -/
theorem foldlM {xs : List β} {f : γ → β → Except ε γ} {c : γ} (hc : R c)
    (hf : ∀ c, ∀ b ∈ xs, R c → Confined E (f c b) R) : Confined E (xs.foldlM f c) R := by
  induction xs generalizing c with
  | nil => exact ok hc
  | cons b rest ih =>
    rw [List.foldlM_cons]
    obtain ⟨hHere, hRest⟩ : (∀ c, R c → Confined E (f c b) R) ∧
        ∀ c, ∀ b ∈ rest, R c → Confined E (f c b) R :=
      ⟨fun c => hf c b (List.mem_cons_self ..),
        fun c b hb => hf c b (List.mem_cons_of_mem _ hb)⟩
    exact (hHere c hc).bind fun c' hc' => ih hc' hRest

/-- One computation for every item of a list. -/
theorem mapM {xs : List β} {f : β → Except ε γ} (hf : ∀ b ∈ xs, Confined E (f b) R) :
    Confined E (xs.mapM f) fun cs => ∀ c ∈ cs, R c := by
  induction xs with
  | nil => exact ok nofun
  | cons b rest ih =>
    obtain ⟨hHere, hRest⟩ := List.forall_mem_cons.mp hf
    rw [List.mapM_cons]
    refine hHere.bind fun c hc => (ih hRest).bind fun cs hcs => ?_
    exact ok (List.forall_mem_cons.mpr ⟨hc, hcs⟩)

end Confined

end SwapSearch
