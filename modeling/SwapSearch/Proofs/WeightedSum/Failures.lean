import SwapSearch.Proofs.Tabu.Failures
import SwapSearch.WeightedSum

/-!
# SwapSearch — how a weighted sum can fail

A weighted sum consults its objectives, reads and writes gain tables, and nothing else. So
it fails with a fault or as one of the objectives does. The first scan evaluates the
objectives in full; the scans after it have a hint, and then only scans of the objectives
are left. A sum is therefore *attentive* to its start: whatever solution it evaluated in
full was that one.

## Results

* `confined_ofObjectives` — a sum of objectives with one weight each.
* `confined_scan_first`   — the first scan, which has no hint.
* `confined_scan_next`    — all the others.
* `tame`                  — so a search on a weighted sum fails in no other way.
-/

namespace SwapSearch

open Confined

/-- The objective can fail in this way. -/
def Objective.Raises {α : Type} (o : Objective α) (cause : Breach) : Prop :=
  (∃ values, o.evaluate values = .error cause) ∨
    ∃ values value hint table, o.scan values value hint table = .error cause

/-- A fault, or a failure of one of the objectives. -/
def Foreseen {α : Type} (objectives : List (Objective α)) (cause : Breach) : Prop :=
  cause.isFault = true ∨ ∃ o ∈ objectives, o.Raises cause

variable {α : Type} {objectives : List (Objective α)} {o : Objective α}

theorem confined_evaluate (ho : o ∈ objectives) (values : Array Nat) :
    Confined (Foreseen objectives) (o.evaluate values) fun _ => True where
  error _ he := Or.inr ⟨o, ho, Or.inl ⟨values, he⟩⟩
  result _ _ := trivial

theorem confined_objectiveScan (ho : o ∈ objectives) (values : Array Nat) (value : α)
    (hint : Option (Nat × Nat)) (table : GainTable α) :
    Confined (Foreseen objectives) (o.scan values value hint table) fun _ => True where
  error _ he := Or.inr ⟨o, ho, Or.inr ⟨values, value, hint, table, he⟩⟩
  result _ _ := trivial

section Tables

variable [Scalar α] {E : Breach → Prop} (hFault : ∀ cause, cause.isFault = true → E cause)
  (table : GainTable α) (i j : Nat)

include hFault

omit [Scalar α] in
theorem confined_requirePair : Confined E (table.requirePair i j) fun _ => True := by
  unfold GainTable.requirePair
  split
  · exact fail (hFault _ rfl)
  · split
    · exact ok trivial
    · exact fail (hFault _ rfl)

theorem confined_gain? : Confined E (table.gain? i j) fun _ => True :=
  (confined_requirePair hFault table i j).bind fun _ _ => ok trivial

omit [Scalar α] in
theorem confined_put? (x : α) : Confined E (table.put? i j x) fun _ => True :=
  (confined_requirePair hFault table i j).bind fun _ _ => ok trivial

end Tables

namespace WeightedSum

variable [Scalar α] {start : Array Nat} {s : WeightedSum α}

/-- The sum is made of the objectives, and has evaluated them in full at the start only. Unless it
has a sole component it has a cache. -/
structure Attentive (objectives : List (Objective α)) (start : Array Nat) (s : WeightedSum α) :
    Prop where
  summands : ∀ c ∈ s.summands, c.objective ∈ objectives
  ready : s.primed = true ∨ s.soleComponent?.isSome = true
  consulted : ∀ values ∈ s.consulted, values = start

theorem mem_of_soleComponent? (hSummands : ∀ c ∈ s.summands, c.objective ∈ objectives)
    (h : s.soleComponent? = some o) : o ∈ objectives := by
  unfold soleComponent? at h
  split at h
  · next c hOne =>
    split at h
    · obtain rfl := Option.some.inj h
      exact hSummands c (hOne ▸ List.mem_singleton_self c)
    · exact nomatch h
  · exact nomatch h

/-- Every summand is brought to the present solution. -/
theorem confined_advance {c : Summand α} (hMember : c.objective ∈ objectives)
    (solution : Array Nat) (hint : Option (Nat × Nat)) :
    Confined (Foreseen objectives) (Summand.advance solution hint c) fun next =>
      next.objective ∈ objectives := by
  have hScan : ∀ value, Confined (Foreseen objectives) (do
      let gains ← c.objective.scan solution value hint c.gains
      return { c with value, gains }) fun next => next.objective ∈ objectives := fun value =>
    (confined_objectiveScan hMember solution value hint c.gains).bind fun _ _ => ok hMember
  cases hint with
  | none => exact (confined_evaluate hMember solution).bind fun value _ => hScan value
  | some pair =>
    exact (confined_gain? (fun _ => Or.inl) c.gains pair.1 pair.2).bind fun gain _ =>
      hScan (c.value + gain)

/-- The table is filled with the weighted sums of the gains. -/
theorem confined_fill (summands : List (Summand α)) (n : Nat) (table : GainTable α) :
    Confined (Foreseen objectives) ((swapPairs n).foldlM (fun table (i, j) => do
      table.put? i j (← combinedGain summands i j)) table) fun _ => True := by
  refine Confined.foldlM trivial fun table pair _ _ => ?_
  have hCombined : Confined (Foreseen objectives) (combinedGain summands pair.1 pair.2)
      fun _ => True :=
    (Confined.mapM (R := fun _ => True) fun c _ =>
      (confined_gain? (fun _ => Or.inl) c.gains pair.1 pair.2).bind fun _ _ => ok trivial).bind
      fun _ _ => ok trivial
  exact hCombined.bind fun gain _ => confined_put? (fun _ => Or.inl) table _ _ gain

/-- A scan keeps a sum attentive if it evaluates in full at the start only. -/
theorem confined_scan {solution : Array Nat} {hint : Option (Nat × Nat)}
    (hSummands : ∀ c ∈ s.summands, c.objective ∈ objectives)
    (hConsulted : ∀ values ∈ s.consulted, values = start)
    (hHere : s.soleComponent? = none → (if s.primed then hint else none) = none →
      solution = start) (value : α) (table : GainTable α) :
    Confined (Foreseen objectives) (s.scan solution value hint table) fun scanned =>
      Attentive objectives start scanned.1 := by
  unfold scan
  -- a sole component is scanned itself; otherwise all summands are advanced
  cases hSole : s.soleComponent? with
  | some o =>
    have hMember := mem_of_soleComponent? hSummands hSole
    refine (confined_objectiveScan hMember solution value hint table).bind fun _ _ => ?_
    exact ok ⟨hSummands, Or.inr (hSole ▸ rfl), hConsulted⟩
  | none =>
    have hHere := hHere hSole
    generalize (if s.primed then hint else none) = used at hHere
    dsimp only
    refine Confined.bind (Confined.mapM fun c hc =>
      confined_advance (hSummands c hc) solution used) fun summands hNext => ?_
    refine (confined_fill summands solution.size table).bind fun _ _ => ?_
    refine ok ⟨hNext, Or.inl rfl, ?_⟩
    cases used with
    | some pair => exact hConsulted
    | none => exact List.forall_mem_cons.mpr ⟨hHere rfl, hConsulted⟩

/-- A new sum is made of the objectives, and has not evaluated anything. -/
theorem mem_of_ofObjectives {weights : List α} (h : ofObjectives objectives weights = .ok s) :
    (∀ c ∈ s.summands, c.objective ∈ objectives) ∧ s.consulted = [] := by
  unfold ofObjectives at h
  cases objectives with
  | nil => exact nomatch h
  | cons first rest =>
    dsimp only at h
    split at h
    · exact nomatch h
    · obtain ⟨table, -, h⟩ := exists_of_bind_ok h
      obtain rfl := Except.ok.inj h
      exact ⟨List.forall_mem_map.mpr fun pair hPair => (List.of_mem_zip hPair).1, rfl⟩

theorem confined_ofObjectives {weights : List α} (hNonempty : objectives ≠ [])
    (hCount : objectives.length = weights.length) :
    Confined (Foreseen objectives) (ofObjectives objectives weights) fun _ => True := by
  unfold ofObjectives
  cases objectives with
  | nil => exact absurd rfl hNonempty
  | cons first rest =>
    dsimp only
    rw [if_neg (not_not_intro hCount)]
    exact (Tabu.confined_allocate (fun _ => Or.inl) first.size).bind fun _ _ => ok trivial

/-- **The first scan.** There is no hint, so a sum without a sole component fills its cache. -/
theorem confined_scan_first (hSummands : ∀ c ∈ s.summands, c.objective ∈ objectives)
    (hNone : s.consulted = []) (start : Array Nat) (value : α) (table : GainTable α) :
    Confined (Foreseen objectives) (s.scan start value none table) fun scanned =>
      Attentive objectives start scanned.1 :=
  confined_scan hSummands (hNone ▸ nofun) (fun _ _ => rfl) value table

/-- **The scans after it.** A hint is used if there is a cache. -/
theorem confined_scan_next (h : Attentive objectives start s) (solution : Array Nat) (value : α)
    (pair : Nat × Nat) (table : GainTable α) :
    Confined (Foreseen objectives) (s.scan solution value (some pair) table) fun scanned =>
      Attentive objectives start scanned.1 := by
  refine confined_scan h.summands h.consulted (fun hSole hUnused => ?_) value table
  rcases h.ready with hPrimed | hSome
  · rw [if_pos hPrimed] at hUnused
    exact nomatch hUnused
  · rw [hSole] at hSome
    exact nomatch hSome

/-- A search on a weighted sum fails with a fault or as one of the objectives does, if its monitor
fails with faults only. -/
theorem tame {μ : Type} [Monitor μ α] (start : Array Nat)
    (hCharge : ∀ (m : μ) (b : Budget),
      Confined (Foreseen objectives) (Monitor.onCharge m b) fun _ => True) :
    Tabu.Tame (WeightedSum α) μ (Foreseen objectives) (Attentive objectives start) where
  fault _ := Or.inl
  charge := hCharge
  scan _ solution value pair table h := confined_scan_next h solution value pair table

end WeightedSum

end SwapSearch
