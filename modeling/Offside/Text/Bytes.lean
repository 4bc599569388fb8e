/-! Byte offsets into a list of characters. A cut is possible only between two characters: at
`byteSize before` when the text is `before ++ after`. -/
namespace Offside.Text

/-- The length of the UTF-8 form in bytes. -/
def byteSize : List Char → Nat
  | [] => 0
  | c :: cs => c.utf8Size + byteSize cs

@[simp] theorem byteSize_nil : byteSize [] = 0 := rfl

@[simp] theorem byteSize_cons (c : Char) (cs : List Char) :
    byteSize (c :: cs) = c.utf8Size + byteSize cs := rfl

@[simp] theorem byteSize_append (a b : List Char) : byteSize (a ++ b) = byteSize a + byteSize b := by
  induction a with
  | nil => simp
  | cons c cs ih => simp [ih, Nat.add_assoc]

theorem length_le_byteSize (v : List Char) : v.length ≤ byteSize v := by
  induction v with
  | nil => exact Nat.le_refl 0
  | cons c v ih =>
    have hpos := c.utf8Size_pos
    rw [List.length_cons, byteSize_cons]
    omega

theorem byteSize_eq_length_iff {v : List Char} :
    byteSize v = v.length ↔ ∀ c ∈ v, c.utf8Size = 1 := by
  induction v with
  | nil => simp
  | cons c v ih =>
    have hpos := c.utf8Size_pos
    have hle := length_le_byteSize v
    rw [byteSize_cons, List.length_cons, List.forall_mem_cons, ← ih]
    omega

/-- The text from byte `n` on; none inside a character and past the end. -/
def dropBytes? : Nat → List Char → Option (List Char)
  | 0, cs => some cs
  | _ + 1, [] => none
  | n + 1, c :: cs => if c.utf8Size ≤ n + 1 then dropBytes? (n + 1 - c.utf8Size) cs else none

/-- The text before byte `n`; none inside a character and past the end. -/
def takeBytes? : Nat → List Char → Option (List Char)
  | 0, _ => some []
  | _ + 1, [] => none
  | n + 1, c :: cs =>
    if c.utf8Size ≤ n + 1 then (takeBytes? (n + 1 - c.utf8Size) cs).map (c :: ·) else none

/-- The characters from byte `start` up to byte `stop`; none unless both are cuts in this order. -/
def slice? (text : List Char) (start stop : Nat) : Option (List Char) :=
  if start ≤ stop then (dropBytes? start text).bind (takeBytes? (stop - start)) else none

@[simp] theorem dropBytes?_append (a b : List Char) : dropBytes? (byteSize a) (a ++ b) = some b := by
  induction a with
  | nil => simp [dropBytes?]
  | cons c cs ih =>
    obtain ⟨n, hn⟩ := Nat.exists_eq_succ_of_ne_zero (Nat.ne_of_gt c.utf8Size_pos)
    have h : byteSize (c :: cs) = n + byteSize cs + 1 := by rw [byteSize_cons]; omega
    rw [h, List.cons_append, dropBytes?, if_pos (by omega),
      show n + byteSize cs + 1 - c.utf8Size = byteSize cs by omega, ih]

/-- A text can be cut only between two characters and at its ends. -/
theorem dropBytes?_eq_some_iff {n : Nat} {text after : List Char} :
    dropBytes? n text = some after ↔
      ∃ before, text = before ++ after ∧ n = byteSize before := by
  constructor
  · intro h
    fun_induction dropBytes? n text with
    | case1 text =>
      cases h
      exact ⟨[], rfl, rfl⟩
    | case2 => cases h
    | case3 n c cs hc ih =>
      obtain ⟨before, rfl, hbefore⟩ := ih h
      exact ⟨c :: before, rfl, by rw [byteSize_cons]; omega⟩
    | case4 => cases h
  · rintro ⟨before, rfl, rfl⟩
    exact dropBytes?_append before after

@[simp] theorem takeBytes?_append (a b : List Char) : takeBytes? (byteSize a) (a ++ b) = some a := by
  induction a with
  | nil => simp [takeBytes?]
  | cons c cs ih =>
    obtain ⟨n, hn⟩ := Nat.exists_eq_succ_of_ne_zero (Nat.ne_of_gt c.utf8Size_pos)
    have h : byteSize (c :: cs) = n + byteSize cs + 1 := by rw [byteSize_cons]; omega
    rw [h, List.cons_append, takeBytes?, if_pos (by omega),
      show n + byteSize cs + 1 - c.utf8Size = byteSize cs by omega, ih]
    rfl

/-- A slice between two cuts is the text between them. -/
theorem slice?_append (a b c : List Char) :
    slice? (a ++ (b ++ c)) (byteSize a) (byteSize a + byteSize b) = some b := by
  simp [slice?]

end Offside.Text
