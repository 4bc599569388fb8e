/-! Names and what they are bound to. Each name has at most one entry, the newest in front. -/
namespace Offside

structure Bindings (α : Type) where
  entries : List (String × α)
deriving DecidableEq, Repr

namespace Bindings

def empty : Bindings α := ⟨[]⟩

def get? (b : Bindings α) (name : String) : Option α := b.entries.lookup name

/-- Binds a name, in place of what it was bound to before. -/
def insert (b : Bindings α) (name : String) (value : α) : Bindings α :=
  ⟨(name, value) :: b.entries.filter (·.1 ≠ name)⟩

@[simp] theorem get?_empty (name : String) : (empty : Bindings α).get? name = none := rfl

theorem lookup_filter_ne {name other : String} (h : other ≠ name) (entries : List (String × α)) :
    (entries.filter (·.1 ≠ name)).lookup other = entries.lookup other := by
  induction entries with
  | nil => rfl
  | cons entry rest ih =>
    obtain ⟨key, value⟩ := entry
    by_cases hk : key = name
    · have ho : (other == key) = false := by simpa [hk] using h
      rw [List.filter_cons_of_neg (by simpa using hk), List.lookup_cons, ho, ih]
    · rw [List.filter_cons_of_pos (by simpa using hk), List.lookup_cons, List.lookup_cons, ih]

theorem get?_insert (b : Bindings α) (name other : String) (value : α) :
    (b.insert name value).get? other = if other = name then some value else b.get? other := by
  by_cases h : other = name
  · simp [insert, get?, h]
  · have ho : (other == name) = false := by simpa using h
    simp only [insert, get?, List.lookup_cons, ho, h, if_false, lookup_filter_ne h]

end Bindings
end Offside
