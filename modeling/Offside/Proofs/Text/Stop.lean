import Mathlib.Data.List.TakeWhile

/-! Where a scan of a text stops. It does not come to what is behind a character that stops it. -/
namespace Offside

variable {p : α → Bool} {a : α} {l m : List α}

theorem takeWhile_append_of_neg (ha : p a = false) (l m : List α) :
    (l ++ a :: m).takeWhile p = l.takeWhile p := by
  induction l with
  | nil => exact List.takeWhile_cons_of_neg (by simp [ha])
  | cons b l ih => rw [List.cons_append, List.takeWhile_cons, List.takeWhile_cons, ih]

theorem dropWhile_append_of_neg (ha : p a = false) (l m : List α) :
    (l ++ a :: m).dropWhile p = l.dropWhile p ++ a :: m := by
  induction l with
  | nil => exact List.dropWhile_cons_of_neg (by simp [ha])
  | cons b l ih =>
    rw [List.cons_append, List.dropWhile_cons, List.dropWhile_cons, ih]
    split <;> rfl

/-- Where a scan stops in a text, it stops with more text behind it. -/
theorem takeWhile_append_of_mem (ha : p a = false) (h : a ∈ l) (m : List α) :
    (l ++ m).takeWhile p = l.takeWhile p := by
  obtain ⟨before, after, rfl⟩ := List.append_of_mem h
  rw [List.append_assoc, List.cons_append, takeWhile_append_of_neg ha, takeWhile_append_of_neg ha]

/-- A scan reads what it looks for up to the first other thing. -/
theorem takeWhile_append_cons (hl : ∀ b ∈ l, p b = true) (ha : p a = false) (m : List α) :
    (l ++ a :: m).takeWhile p = l := by
  rw [takeWhile_append_of_neg ha, List.takeWhile_eq_self_iff.2 hl]

/-- A scan that stops between two texts stops there before every text with the same first. -/
theorem takeWhile_append_cons_congr (h : (l ++ a :: m).takeWhile p = l) (m' : List α) :
    (l ++ a :: m').takeWhile p = l := by
  have hl : ∀ b ∈ l, p b = true := by
    rw [← h]
    exact List.all_eq_true.1 List.all_takeWhile
  rw [List.takeWhile_append_of_pos hl, List.append_right_eq_self] at h
  have ha : p a = false := by
    by_contra ha
    rw [List.takeWhile_cons_of_pos (by simpa using ha)] at h
    cases h
  exact takeWhile_append_cons hl ha m'

variable [BEq α] [LawfulBEq α] {s : List α}

/-- A text without a character starts at most what is before it. -/
theorem isPrefixOf_append_of_not_mem (hs : a ∉ s) (l m : List α) :
    s.isPrefixOf (l ++ a :: m) = s.isPrefixOf l := by
  induction s generalizing l with
  | nil => rfl
  | cons b s ih =>
    obtain ⟨hne, hs⟩ := List.ne_and_not_mem_of_not_mem_cons hs
    cases l with
    | nil =>
      rw [List.nil_append, List.isPrefixOf_cons_cons, beq_eq_false_iff_ne.2 hne.symm]
      rfl
    | cons c l => rw [List.cons_append, List.isPrefixOf_cons_cons, List.isPrefixOf_cons_cons, ih hs]

theorem isPrefixOf_append_of_mem (hs : a ∉ s) (h : a ∈ l) (m : List α) :
    s.isPrefixOf (l ++ m) = s.isPrefixOf l := by
  obtain ⟨before, after, rfl⟩ := List.append_of_mem h
  rw [List.append_assoc, List.cons_append, isPrefixOf_append_of_not_mem hs,
    isPrefixOf_append_of_not_mem hs]

end Offside
