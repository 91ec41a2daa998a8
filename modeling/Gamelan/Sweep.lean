namespace Gamelan

/-- Takes a state through a list and collects what each element contributes. -/
def sweep {σ α β : Type} (f : σ → α → σ × List β) (s : σ) (xs : List α) : σ × List β :=
  let (s, out) := xs.foldl (fun (s, out) x =>
    let (s, ys) := f s x
    (s, out ++ ys)) (s, (#[] : Array β))
  (s, out.toList)

section

variable {σ α β : Type} (f : σ → α → σ × List β)

private theorem foldl_sweep (s : σ) (out : Array β) (xs : List α) :
    xs.foldl (fun (s, out) x => ((f s x).1, out ++ (f s x).2)) (s, out) =
      ((sweep f s xs).1, out ++ (sweep f s xs).2) := by
  induction xs generalizing s out with
  | nil => simp [sweep]
  | cons x xs ih =>
    have h : sweep f s (x :: xs) =
        ((sweep f (f s x).1 xs).1, (f s x).2 ++ (sweep f (f s x).1 xs).2) := by
      have := ih (f s x).1 ((#[] : Array β) ++ (f s x).2)
      simp only [sweep, List.foldl_cons] at this ⊢
      rw [this]
      simp
    rw [List.foldl_cons, ih, h]
    exact Prod.ext rfl (Array.toList_inj.1 (by simp))

@[simp] theorem sweep_nil (s : σ) : sweep f s [] = (s, []) := by simp [sweep]

theorem sweep_cons (s : σ) (x : α) (xs : List α) :
    sweep f s (x :: xs) = ((sweep f (f s x).1 xs).1, (f s x).2 ++ (sweep f (f s x).1 xs).2) := by
  have h := foldl_sweep f (f s x).1 ((#[] : Array β) ++ (f s x).2) xs
  simp only [sweep, List.foldl_cons] at h ⊢
  rw [h]
  simp

end

end Gamelan
