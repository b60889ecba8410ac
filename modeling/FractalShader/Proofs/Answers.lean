import Mathlib.Data.List.Nodup

/-
  Answers that may be refusals, how they were put together,
  and how things with distinct keys are found again.

  Main declarations:
    * `Answers.bind_eq_ok_iff`
    * `Answers.mapError_eq_ok_iff`
    * `Answers.cases_of_map_eq`
    * `Answers.mapM_eq_ok`
    * `Answers.exists_mapM`
    * `Answers.of_mapM_eq_ok`
    * `Answers.mapM_map_eq_some`
    * `Answers.mapM_eq_none`
    * `Answers.find?_eq_some`
-/

namespace FractalShader

namespace Answers

variable {ε ε' α β : Type}

/- Both steps of an answer that is given were taken. -/
theorem bind_eq_ok_iff
    {x : Except ε α}
    {f : α → Except ε β}
    {b : β} :
    (x >>= f) = .ok b ↔ ∃ a, x = .ok a ∧ f a = .ok b := by
  cases x with
  | error why => simp [bind, Except.bind]
  | ok a => simp [bind, Except.bind]

/- Another refusal does not change what is answered. -/
theorem mapError_eq_ok_iff
    {x : Except ε α}
    {f : ε → ε'}
    {a : α} :
    x.mapError f = .ok a ↔ x = .ok a := by
  cases x with
  | error why => simp [Except.mapError]
  | ok a => simp [Except.mapError]

/- Answers of one image are the same refusal, or alike. -/
theorem cases_of_map_eq
    {f : α → β}
    {x y : Except ε α}
    (h : x.map f = y.map f) :
    (∃ why, x = .error why ∧ y = .error why) ∨
      ∃ a b, x = .ok a ∧ y = .ok b ∧ f a = f b := by
  cases x with
  | error why =>
      cases y with
      | error other =>
          cases h
          exact Or.inl ⟨why, rfl, rfl⟩
      | ok b => cases h
  | ok a =>
      cases y with
      | error other => cases h
      | ok b =>
          injection h with hEq
          exact Or.inr ⟨a, b, rfl, rfl, hEq⟩

/- Questions that are all answered are answered in a row. -/
theorem mapM_eq_ok
    {f : α → Except ε β}
    {pairs : List (α × β)}
    (h : ∀ pair ∈ pairs, f pair.1 = .ok pair.2) :
    (pairs.map Prod.fst).mapM f =
      .ok (pairs.map Prod.snd) := by
  induction pairs with
  | nil => rfl
  | cons pair pairs ih =>
      have hRest :=
        ih fun other hOther =>
          h other (List.mem_cons_of_mem _ hOther)
      simp [h pair List.mem_cons_self, hRest, bind,
        Except.bind, pure, Except.pure]

theorem exists_mapM
    {f : α → Except ε β}
    {xs : List α}
    (h : ∀ x ∈ xs, ∃ y, f x = .ok y) :
    ∃ ys, xs.mapM f = .ok ys := by
  induction xs with
  | nil => exact ⟨[], rfl⟩
  | cons x xs ih =>
      rcases h x List.mem_cons_self with ⟨y, hFirst⟩
      rcases ih fun z hz => h z (List.mem_cons_of_mem _ hz)
        with ⟨ys, hRest⟩
      refine ⟨y :: ys, ?_⟩
      rw [List.mapM_cons, hFirst, hRest]
      rfl

/- Each question of a row that is answered has its answer. -/
theorem of_mapM_eq_ok
    {f : α → Except ε β}
    {xs : List α}
    {ys : List β}
    (h : xs.mapM f = .ok ys) :
    ys.length = xs.length ∧
      ∀ entry ∈ xs.zip ys, f entry.1 = .ok entry.2 := by
  induction xs generalizing ys with
  | nil =>
      cases h
      simp
  | cons x xs ih =>
      rw [List.mapM_cons] at h
      rcases bind_eq_ok_iff.mp h with ⟨y, hFirst, h⟩
      rcases bind_eq_ok_iff.mp h with ⟨rest, hRest, hEq⟩
      cases hEq
      rcases ih hRest with ⟨hLength, hEach⟩
      refine ⟨by simp [hLength], ?_⟩
      intro entry hEntry
      rw [List.zip_cons_cons] at hEntry
      rcases List.mem_cons.mp hEntry with rfl | hLater
      · exact hFirst
      · exact hEach entry hLater

/- The same for questions that may have no answer. -/
theorem mapM_map_eq_some
    {γ : Type}
    {f : β → Option γ}
    {g : α → β}
    {k : α → γ}
    {xs : List α}
    (h : ∀ x ∈ xs, f (g x) = some (k x)) :
    (xs.map g).mapM f = some (xs.map k) := by
  induction xs with
  | nil => rfl
  | cons x xs ih =>
      have hFirst := h x List.mem_cons_self
      have hRest :=
        ih fun other hOther =>
          h other (List.mem_cons_of_mem _ hOther)
      rw [List.map_cons, List.mapM_cons, hFirst, hRest]
      rfl

/- One question without an answer leaves the row without. -/
theorem mapM_eq_none
    {f : α → Option β}
    {xs : List α}
    {x : α}
    (hMem : x ∈ xs)
    (h : f x = none) :
    xs.mapM f = none := by
  induction xs with
  | nil => cases hMem
  | cons y xs ih =>
      rw [List.mapM_cons]
      rcases List.mem_cons.mp hMem with rfl | hMem
      · rw [h]
        rfl
      · rw [ih hMem]
        cases f y <;> rfl

/- What has a key of its own is found under it. -/
theorem find?_eq_some
    {key : α → String}
    {xs : List α}
    (hNodup : (xs.map key).Nodup)
    {x : α}
    (h : x ∈ xs) :
    xs.find? (fun y => key y == key x) = some x := by
  cases hFound : xs.find? (fun y => key y == key x) with
  | none =>
      have hNot := List.find?_eq_none.mp hFound x h
      simp at hNot
  | some y =>
      have hKey : key y = key x := by
        simpa using List.find?_some hFound
      have hMem := List.mem_of_find?_eq_some hFound
      rw [List.inj_on_of_nodup_map hNodup hMem h hKey]

end Answers

end FractalShader
