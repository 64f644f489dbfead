import Mathlib.Data.List.Forall2

/-!
# SwapSearch — one computation for every item

A computation that may fail is made for the items of a list, one after the other, up to the
first failure. So the results are those of the single computations, or the failure is.

## Results

* `mapM_cases` — how computing along a list can end.
* `exists_mapM_of_forall₂`, `mapM_eq_of_forall₂` — computing along two lists.
-/

namespace SwapSearch

variable {ε β γ δ : Type} {f : β → Except ε γ} {bs : List β} {cs : List γ} {ds : List δ}

/-- Every single computation has succeeded, or one of them has failed with the failure of all. -/
theorem mapM_cases (f : β → Except ε γ) (bs : List β) :
    (∃ cs, bs.mapM f = .ok cs ∧ List.Forall₂ (fun b c => f b = .ok c) bs cs) ∨
    ∃ b ∈ bs, ∃ e, f b = .error e ∧ bs.mapM f = .error e := by
  induction bs with
  | nil => exact Or.inl ⟨[], rfl, .nil⟩
  | cons b bs ih =>
    rw [List.mapM_cons]
    cases hHead : f b with
    | error e => exact Or.inr ⟨b, List.mem_cons_self, e, hHead, rfl⟩
    | ok c =>
      rcases ih with ⟨cs, hAll, hEach⟩ | ⟨bad, hBad, e, hError, hAll⟩
      · refine Or.inl ⟨c :: cs, ?_, .cons hHead hEach⟩
        rw [hAll]
        rfl
      · refine Or.inr ⟨bad, List.mem_cons_of_mem _ hBad, e, hError, ?_⟩
        rw [hAll]
        rfl

/-- What computations that have succeeded together have given. -/
theorem forall₂_of_mapM (h : bs.mapM f = .ok cs) :
    List.Forall₂ (fun b c => f b = .ok c) bs cs := by
  rcases mapM_cases f bs with ⟨cs', hAll, hEach⟩ | ⟨-, -, e, -, hAll⟩
  · obtain rfl := Except.ok.inj (hAll.symm.trans h)
    exact hEach
  · exact nomatch hAll.symm.trans h

/-- Where every single computation succeeds with a related result, so do all together. -/
theorem exists_mapM_of_forall₂ {R : β → δ → Prop} {S : γ → δ → Prop} (h : List.Forall₂ R bs ds)
    (hStep : ∀ b, ∀ d ∈ ds, R b d → ∃ c, f b = .ok c ∧ S c d) :
    ∃ cs, bs.mapM f = .ok cs ∧ List.Forall₂ S cs ds := by
  induction h with
  | nil => exact ⟨[], rfl, .nil⟩
  | @cons b d bs ds hHead _ ih =>
    obtain ⟨c, hc, hS⟩ := hStep b d (List.mem_cons_self ..) hHead
    obtain ⟨cs, hcs, hRest⟩ := ih fun b d hd => hStep b d (List.mem_cons_of_mem _ hd)
    refine ⟨c :: cs, ?_, .cons hS hRest⟩
    rw [List.mapM_cons, hc, hcs]
    rfl

theorem map_eq_of_forall₂ {f : β → γ} {g : δ → γ}
    (h : List.Forall₂ (fun b d => f b = g d) bs ds) : bs.map f = ds.map g := by
  induction h with
  | nil => rfl
  | cons hHead _ ih => rw [List.map_cons, List.map_cons, hHead, ih]

/-- Where the result of every single computation is known, so are all results. -/
theorem mapM_eq_of_forall₂ {g : δ → γ} {R : β → δ → Prop} (h : List.Forall₂ R bs ds)
    (hStep : ∀ b, ∀ d ∈ ds, R b d → f b = .ok (g d)) : bs.mapM f = .ok (ds.map g) := by
  obtain ⟨cs, hAll, hEach⟩ := exists_mapM_of_forall₂ (S := fun c d => id c = g d) h
    fun b d hd hR => ⟨g d, hStep b d hd hR, rfl⟩
  rw [hAll, ← List.map_id cs, map_eq_of_forall₂ hEach]

end SwapSearch
