import Mathlib.Logic.Function.Basic
import Mathlib.Data.List.Nodup

/-!
# Tasks on disjoint places

Tasks change an array and are run one after the other in some order. Where each has
places of its own, which no other task reads or writes (`Within`), the order does not
matter (`foldl_within_perm`): every place ends up as its task leaves it when run alone,
on the array as it was (`foldl_within`).
-/

namespace NetworkDemo.Foundations

universe u v

variable {ι : Type u} {α : Type v} {task : ℕ → (ι → α) → ι → α} {I : ℕ → ι → Prop} {order : List ℕ}
    {m : ι → α} {j : ℕ}
  {k : ι}

/-- Tasks that write one place each, what they write not depending on the array. -/
theorem foldl_update (v : ℕ → α) (order : List ℕ) (m : ℕ → α) (k : ℕ) :
    order.foldl (fun m j => Function.update m j (v j)) m k = if k ∈ order then v k else m k := by
  induction order generalizing m with
  | nil => simp
  | cons j order ih =>
    rw [List.foldl_cons, ih]
    by_cases hk : k ∈ order
    · simp [hk]
    · by_cases hkj : k = j
      · simp [hkj]
      · simp [hk, hkj]

/-- The task writes places of `I` only, and what it writes there depends on those only. -/
structure Within (task : (ι → α) → ι → α) (I : ι → Prop) : Prop where
  frame : ∀ m k, ¬ I k → task m k = m k
  reads : ∀ m m', (∀ k, I k → m k = m' k) → ∀ k, I k → task m k = task m' k

/-- A place of none of the tasks is left alone. -/
theorem foldl_frame (h : ∀ j ∈ order, Within (task j) (I j)) (hk : ∀ j ∈ order, ¬ I j k) :
    order.foldl (fun m j => task j m) m k = m k := by
  induction order generalizing m with
  | nil => rfl
  | cons j order ih =>
    rw [List.foldl_cons, ih (fun i hi => h i (List.mem_cons_of_mem j hi)) fun i hi =>
      hk i (List.mem_cons_of_mem j hi)]
    exact (h j List.mem_cons_self).frame m k (hk j List.mem_cons_self)

/-- **A place of one task** ends up as that task leaves it. -/
theorem foldl_within (h : ∀ j ∈ order, Within (task j) (I j)) (hd : order.Nodup)
    (hI : ∀ i ∈ order, ∀ j ∈ order, i ≠ j → ∀ k, I i k → ¬ I j k) (hj : j ∈ order) (hk : I j k) :
    order.foldl (fun m j => task j m) m k = task j m k := by
  induction order generalizing m with
  | nil => cases hj
  | cons i order ih =>
    obtain ⟨hi, hd⟩ := List.nodup_cons.mp hd
    have hmem : ∀ a ∈ order, a ∈ i :: order := fun a ha => List.mem_cons_of_mem i ha
    rw [List.foldl_cons]
    rcases List.mem_cons.mp hj with rfl | ho
    · -- the others leave the place alone
      exact foldl_frame (fun a ha => h a (hmem a ha)) fun a ha =>
        hI j hj a (hmem a ha) (fun he => hi (by rw [he]; exact ha)) k hk
    · have hne : j ≠ i := by
        rintro rfl
        exact hi ho
      rw [ih (fun a ha => h a (hmem a ha)) hd (fun a ha b hb => hI a (hmem a ha) b (hmem b hb)) ho]
      refine (h j (hmem j ho)).reads _ _ (fun l hl => ?_) k hk
      exact (h i List.mem_cons_self).frame m l (hI j (hmem j ho) i List.mem_cons_self hne l hl)

/-- **The order does not matter.** -/
theorem foldl_within_perm {order' : List ℕ} (h : ∀ j ∈ order, Within (task j) (I j))
    (hd : order.Nodup) (hI : ∀ i ∈ order, ∀ j ∈ order, i ≠ j → ∀ k, I i k → ¬ I j k)
    (hp : order.Perm order') (m : ι → α) :
    order.foldl (fun m j => task j m) m = order'.foldl (fun m j => task j m) m := by
  have hmem : ∀ j, j ∈ order' → j ∈ order := fun j hj => hp.mem_iff.mpr hj
  funext k
  by_cases hk : ∃ j ∈ order, I j k
  · obtain ⟨j, hj, hjk⟩ := hk
    rw [foldl_within h hd hI hj hjk]
    refine (foldl_within (fun i hi => h i (hmem i hi)) (hp.nodup_iff.mp hd) ?_
      (hp.mem_iff.mp hj) hjk).symm
    exact fun a ha b hb => hI a (hmem a ha) b (hmem b hb)
  · have hno : ∀ j ∈ order, ¬ I j k := fun j hj hjk => hk ⟨j, hj, hjk⟩
    rw [foldl_frame h hno, foldl_frame (fun i hi => h i (hmem i hi)) fun i hi => hno i (hmem i hi)]

end NetworkDemo.Foundations
