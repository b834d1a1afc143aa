import Mathlib.Data.List.Nodup
import Mathlib.Tactic.Common

/-! A list as what has happened so far: the first entry of each key, and what each entry has
before it. -/
namespace History

variable {α κ : Type*} [DecidableEq κ] {key : α → κ} {seen seen' : List κ} {xs ys : List α}

/-- The entries whose key is neither among those seen nor that of an earlier entry. -/
def fresh (key : α → κ) (seen : List κ) : List α → List α
  | [] => []
  | x :: xs =>
    if key x ∈ seen then fresh key seen xs else x :: fresh key (key x :: seen) xs

/-- The first entry of each key. -/
def firsts (key : α → κ) (xs : List α) : List α := fresh key [] xs

theorem fresh_congr (h : ∀ k, k ∈ seen ↔ k ∈ seen') : fresh key seen xs = fresh key seen' xs := by
  induction xs generalizing seen seen' with
  | nil => rfl
  | cons x xs ih =>
    have hcons : ∀ k, k ∈ key x :: seen ↔ k ∈ key x :: seen' := by
      intro k
      rw [List.mem_cons, List.mem_cons, h]
    simp only [fresh, h, ih h, ih hcons]

theorem fresh_append :
    fresh key seen (xs ++ ys) = fresh key seen xs ++ fresh key (xs.map key ++ seen) ys := by
  induction xs generalizing seen with
  | nil => rfl
  | cons x xs ih =>
    rw [List.cons_append, List.map_cons, fresh, fresh]
    split_ifs with hx
    · rw [ih]
      congr 1
      apply fresh_congr
      intro k
      simp only [List.cons_append, List.mem_append, List.mem_cons]
      constructor
      · exact .inr
      · rintro (rfl | h)
        · exact .inr hx
        · exact h
    · rw [ih, List.cons_append]
      congr 2
      apply fresh_congr
      intro k
      simp only [List.cons_append, List.mem_append, List.mem_cons]
      tauto

theorem fresh_sublist : List.Sublist (fresh key seen xs) xs := by
  induction xs generalizing seen with
  | nil => exact .refl _
  | cons x xs ih =>
    rw [fresh]
    split_ifs
    · exact ih.cons x
    · exact ih.cons_cons x

/-- Nothing is left of entries that are all repeated. -/
theorem fresh_eq_nil (h : ∀ x ∈ xs, key x ∈ seen) : fresh key seen xs = [] := by
  induction xs with
  | nil => rfl
  | cons x xs ih =>
    rw [fresh, if_pos (h x List.mem_cons_self)]
    exact ih fun y hy => h y (List.mem_cons_of_mem x hy)

/-- Entries of different keys, none of them seen, are all there. -/
theorem fresh_eq_self (hnodup : (xs.map key).Nodup) (h : ∀ x ∈ xs, key x ∉ seen) :
    fresh key seen xs = xs := by
  induction xs generalizing seen with
  | nil => rfl
  | cons x xs ih =>
    obtain ⟨hx, hrest⟩ := List.nodup_cons.mp hnodup
    rw [fresh, if_neg (h x List.mem_cons_self), ih hrest]
    intro y hy hmem
    rcases List.mem_cons.mp hmem with heq | hmem
    · exact hx (heq ▸ List.mem_map_of_mem hy)
    · exact h y (List.mem_cons_of_mem x hy) hmem

/-- Every key is that of a first entry, or was seen before. -/
theorem mem_map_fresh {k : κ} : k ∈ (fresh key seen xs).map key ∨ k ∈ seen ↔
    k ∈ xs.map key ∨ k ∈ seen := by
  induction xs generalizing seen with
  | nil => rfl
  | cons x xs ih =>
    rw [fresh]
    split_ifs with hx
    · rw [ih, List.map_cons, List.mem_cons]
      constructor
      · rintro (h | h)
        · exact .inl (.inr h)
        · exact .inr h
      · rintro ((rfl | h) | h)
        · exact .inr hx
        · exact .inl h
        · exact .inr h
    · have hrest : k ∈ (fresh key (key x :: seen) xs).map key ∨ k ∈ key x :: seen ↔
          k ∈ xs.map key ∨ k ∈ key x :: seen := ih
      simp only [List.map_cons, List.mem_cons] at hrest ⊢
      tauto

theorem mem_map_firsts {k : κ} : k ∈ (firsts key xs).map key ↔ k ∈ xs.map key := by
  have h : k ∈ (fresh key [] xs).map key ∨ k ∈ [] ↔ k ∈ xs.map key ∨ k ∈ [] := mem_map_fresh
  simpa only [firsts, List.not_mem_nil, or_false] using h

/-- Later entries add what is new in them. -/
theorem firsts_append : firsts key (xs ++ ys) = firsts key xs ++ fresh key (xs.map key) ys := by
  rw [firsts, fresh_append, List.append_nil]
  rfl

/-- Entries of new keys are first entries. -/
theorem firsts_append_of_nodup (h : ((firsts key xs ++ ys).map key).Nodup) :
    firsts key (xs ++ ys) = firsts key xs ++ ys := by
  rw [List.map_append, List.nodup_append'] at h
  obtain ⟨-, hys, hdisjoint⟩ := h
  rw [firsts_append, fresh_eq_self hys]
  intro y hy hmem
  exact hdisjoint (mem_map_firsts.mpr hmem) (List.mem_map_of_mem hy)

theorem firsts_append_of_mem (h : ∀ y ∈ ys, key y ∈ xs.map key) :
    firsts key (xs ++ ys) = firsts key xs := by
  rw [firsts_append, fresh_eq_nil h, List.append_nil]

theorem mem_of_mem_firsts {x : α} (h : x ∈ firsts key xs) : x ∈ xs := fresh_sublist.subset h

theorem firsts_prefix (h : xs <+: ys) : firsts key xs <+: firsts key ys := by
  obtain ⟨zs, rfl⟩ := h
  rw [firsts_append]
  exact List.prefix_append ..

section Each

variable {P Q : List α → α → Prop}

/-- Every entry has the property, given what is before it. -/
def Each (P : List α → α → Prop) (xs : List α) : Prop :=
  ∀ before x after, xs = before ++ x :: after → P before x

theorem each_nil : Each P [] := by
  intro before x after h
  simp at h

theorem Each.mono (h : Each P xs)
    (hPQ : ∀ before x, x ∈ xs → P before x → Q before x) : Each Q xs := by
  rintro before x after rfl
  exact hPQ before x (by simp) (h before x after rfl)

theorem Each.append (h : Each P xs) (h' : Each (fun before x => P (xs ++ before) x) ys) :
    Each P (xs ++ ys) := by
  intro before x after heq
  rcases List.append_eq_append_iff.mp heq with ⟨mid, rfl, rfl⟩ | ⟨mid, rfl, hmid⟩
  · exact h' mid x after rfl
  · rcases mid with _ | ⟨y, mid⟩
    · have hys := h' [] x after hmid.symm
      simpa only [List.append_nil] using hys
    · rw [List.cons_append, List.cons.injEq] at hmid
      obtain ⟨rfl, -⟩ := hmid
      exact h before x mid rfl

theorem each_concat {x : α} : Each P (xs ++ [x]) ↔ Each P xs ∧ P xs x := by
  constructor
  · intro h
    exact ⟨fun before y after heq => h before y (after ++ [x]) (by simp [heq]), h xs x [] rfl⟩
  · rintro ⟨h, hx⟩
    refine h.append fun before y after heq => ?_
    obtain ⟨rfl, rfl, rfl⟩ : before = [] ∧ x = y ∧ after = [] := by
      rcases before with _ | ⟨z, before⟩
      · exact ⟨rfl, List.cons.inj heq |>.1, (List.cons.inj heq).2.symm⟩
      · simp at heq
    simpa only [List.append_nil] using hx

theorem Each.right (h : Each P (xs ++ ys)) : Each (fun before x => P (xs ++ before) x) ys := by
  rintro before x after rfl
  exact h (xs ++ before) x after (List.append_assoc ..).symm

theorem Each.of_isPrefix (h : Each P ys) (hpre : xs <+: ys) : Each P xs := by
  obtain ⟨zs, rfl⟩ := hpre
  rintro before x after rfl
  exact h before x (after ++ zs) (by simp)

end Each

end History
