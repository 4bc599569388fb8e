import Mathlib.Data.List.Basic
import Offside.Proofs.Text.Line

/-! The bytes of a text, and its lines seen in them. The line that holds a byte is the widest
stretch around it with no line feed before the last byte. -/
namespace Offside.Text

variable {c : Char} {v w text line : List Char} {l : Line} {offset i : Nat}

/-- The UTF-8 form of a text. -/
def bytes (text : List Char) : List UInt8 := text.flatMap String.utf8EncodeChar

/-- The byte that ends a line. -/
def lineFeed : UInt8 := 0x0a

@[simp] theorem bytes_nil : bytes [] = [] := rfl

@[simp] theorem bytes_cons (c : Char) (v : List Char) :
    bytes (c :: v) = String.utf8EncodeChar c ++ bytes v := List.flatMap_cons

@[simp] theorem bytes_append (v w : List Char) : bytes (v ++ w) = bytes v ++ bytes w :=
  List.flatMap_append

@[simp] theorem length_bytes (text : List Char) : (bytes text).length = byteSize text := by
  induction text with
  | nil => rfl
  | cons c text ih => simp [ih]

theorem bytes_injective (h : bytes v = bytes w) : v = w := by
  have hencode : v.utf8Encode = w.utf8Encode := congrArg List.toByteArray h
  rw [← String.toByteArray_ofList, ← String.toByteArray_ofList, String.toByteArray_inj] at hencode
  exact String.ofList_injective hencode

theorem ofNat_eq_lineFeed_iff {n : Nat} (h : n < 256) : UInt8.ofNat n = lineFeed ↔ n = 10 := by
  rw [← UInt8.toNat_inj, UInt8.toNat_ofNat', Nat.mod_eq_of_lt h]
  rfl

/-- No other character has the byte of a line feed in its UTF-8 form. -/
theorem lineFeed_mem_utf8EncodeChar_iff : lineFeed ∈ String.utf8EncodeChar c ↔ c = '\n' := by
  have hchar : c = '\n' ↔ c.val.toNat = 10 := by
    rw [← Char.toNat_inj]
    rfl
  rw [hchar]
  unfold String.utf8EncodeChar
  simp only
  split
  · rw [List.mem_singleton, eq_comm, ofNat_eq_lineFeed_iff (by omega)]
  · have hfeed : ∀ n, 128 ≤ n → n < 256 → lineFeed ≠ UInt8.ofNat n := fun n hle hlt heq => by
      have := (ofNat_eq_lineFeed_iff hlt).1 heq.symm
      omega
    refine iff_of_false ?_ (by omega)
    split
    · simp only [List.mem_cons, List.not_mem_nil, or_false, not_or]
      refine ⟨hfeed _ ?_ ?_, hfeed _ ?_ ?_⟩ <;> omega
    · split
      · simp only [List.mem_cons, List.not_mem_nil, or_false, not_or]
        refine ⟨hfeed _ ?_ ?_, hfeed _ ?_ ?_, hfeed _ ?_ ?_⟩ <;> omega
      · simp only [List.mem_cons, List.not_mem_nil, or_false, not_or]
        refine ⟨hfeed _ ?_ ?_, hfeed _ ?_ ?_, hfeed _ ?_ ?_, hfeed _ ?_ ?_⟩ <;> omega

@[simp] theorem lineFeed_mem_bytes_iff : lineFeed ∈ bytes v ↔ '\n' ∈ v := by
  simp [bytes, lineFeed_mem_utf8EncodeChar_iff]

/-- The bytes of a line that has its line feed. -/
theorem bytes_append_lineFeed (v : List Char) : bytes (v ++ ['\n']) = bytes v ++ [lineFeed] := by
  rw [bytes_append]
  rfl

/-! ### Lines that are ended -/

/-- A line with its line feed, which is the last character and no other. -/
def Ended (line : List Char) : Prop := ∃ v, line = v ++ ['\n'] ∧ '\n' ∉ v

theorem Ended.count_lineFeed (h : Ended line) : (bytes line).count lineFeed = 1 := by
  obtain ⟨v, rfl, hv⟩ := h
  have hnone : (bytes v).count lineFeed = 0 :=
    List.count_eq_zero.2 (mt lineFeed_mem_bytes_iff.1 hv)
  rw [bytes_append_lineFeed, List.count_append, hnone, List.count_singleton_self]

theorem Ended.getLast? (h : Ended line) : (bytes line).getLast? = some lineFeed := by
  obtain ⟨v, rfl, -⟩ := h
  rw [bytes_append_lineFeed, List.getLast?_concat]

/-- A line has no line feed before its last byte. -/
theorem lineFeed_not_mem_dropLast_bytes (h : line ∈ lines text) :
    lineFeed ∉ (bytes line).dropLast := by
  have hdropLast := lineFeed_not_mem_dropLast h
  obtain rfl | ⟨v, c, rfl⟩ := line.eq_nil_or_concat'
  · simp
  · rw [List.dropLast_concat] at hdropLast
    by_cases hc : c = '\n'
    · rw [hc, bytes_append_lineFeed, List.dropLast_concat]
      exact mt lineFeed_mem_bytes_iff.1 hdropLast
    · intro hmem
      have hmem := lineFeed_mem_bytes_iff.1 (List.dropLast_subset _ hmem)
      simp [hdropLast, Ne.symm hc] at hmem

/-- Each line of a text that another line follows is ended. -/
theorem ended_of_lines_eq {above below : List (List Char)} {next : List Char}
    (h : lines text = above ++ line :: next :: below) : Ended line := by
  induction text generalizing above line with
  | nil => simp [lines] at h
  | cons c text ih =>
    rw [lines] at h
    split at h
    · rename_i hc
      subst hc
      cases above with
      | nil => exact ⟨[], by simpa using (List.cons.inj h).1.symm, List.not_mem_nil⟩
      | cons first above => exact ih (List.cons.inj h).2
    · rename_i hc
      split at h
      · simp [List.singleton_eq_append_iff] at h
      · rename_i first rest hlines
        cases above with
        | nil =>
          obtain ⟨rfl, rfl⟩ := List.cons.inj h
          have hfirst : lines text = [] ++ first :: next :: below := hlines
          obtain ⟨v, rfl, hv⟩ := ih hfirst
          exact ⟨c :: v, rfl, by simp [hv, Ne.symm hc]⟩
        | cons _ above =>
          obtain ⟨-, rfl⟩ := List.cons.inj h
          have hfirst : lines text = (first :: above) ++ line :: next :: below := hlines
          exact ih hfirst

/-- So are the lines above a line. -/
theorem ended_of_mem_above {above below : List (List Char)} {last : List Char}
    (h : lines text = above ++ last :: below) (hline : line ∈ above) : Ended line := by
  obtain ⟨front, back, rfl⟩ := List.append_of_mem hline
  rw [List.append_assoc] at h
  cases back with
  | nil => exact ended_of_lines_eq h
  | cons next back => exact ended_of_lines_eq h

theorem count_lineFeed_of_ended {above : List (List Char)} (h : ∀ line ∈ above, Ended line) :
    (bytes above.flatten).count lineFeed = above.length := by
  induction above with
  | nil => rfl
  | cons line above ih =>
    rw [List.forall_mem_cons] at h
    rw [List.flatten_cons, bytes_append, List.count_append, h.1.count_lineFeed, ih h.2,
      List.length_cons, Nat.add_comm]

/-- The byte before a line is a line feed, if there is one. -/
theorem getLast?_of_ended {above : List (List Char)} (h : ∀ line ∈ above, Ended line)
    (hne : bytes above.flatten ≠ []) : (bytes above.flatten).getLast? = some lineFeed := by
  obtain rfl | ⟨front, last, rfl⟩ := above.eq_nil_or_concat'
  · exact absurd rfl hne
  · have hlast := (h last (by simp)).getLast?
    rw [List.flatten_concat, bytes_append, List.getLast?_append, hlast, Option.some_or]

/-! ### The widest stretch around a byte -/

/-- A stretch of `all` around the byte at `offset`, with a line feed at most as its last byte. -/
structure StretchAt (all : List UInt8) (offset : Nat) (before stretch after : List UInt8) :
    Prop where
  eq : all = before ++ (stretch ++ after)
  start_le : before.length ≤ offset
  lt_stop : offset < before.length + stretch.length
  noLineFeed : lineFeed ∉ stretch.dropLast

/-- The widest of these: each other one lies within it. -/
structure WidestAt (all : List UInt8) (offset : Nat) (before line after : List UInt8) : Prop
    extends StretchAt all offset before line after where
  widest {b s a : List UInt8} (h : StretchAt all offset b s a) :
    before.length ≤ b.length ∧ b.length + s.length ≤ before.length + line.length

section Stretches
variable {all before stretch after b s a : List UInt8}

/-- A line feed in a stretch is its last byte. -/
theorem StretchAt.stop_of_lineFeed (h : StretchAt all offset before stretch after)
    (hi : all[i]? = some lineFeed) (hstart : before.length ≤ i) :
    before.length + stretch.length ≤ i + 1 := by
  by_contra hlt
  rw [h.eq, List.getElem?_append_right hstart, List.getElem?_append_left (by omega)] at hi
  have hlast : stretch.dropLast[i - before.length]? = some lineFeed := by
    rw [List.getElem?_dropLast, if_pos (by omega), hi]
  exact h.noLineFeed (List.mem_of_getElem? hlast)

/-- A stretch between line feeds is the widest. -/
theorem StretchAt.widestAt (h : StretchAt all offset before stretch after)
    (hbefore : before ≠ [] → before.getLast? = some lineFeed)
    (hafter : after ≠ [] → stretch.getLast? = some lineFeed) :
    WidestAt all offset before stretch after where
  toStretchAt := h
  widest {b s a} hs := by
    have hlt := hs.lt_stop
    have hstart := hs.start_le
    have hle := h.start_le
    have hstop := h.lt_stop
    constructor
    · by_contra hb
      -- One that starts earlier has the line feed before this one inside it.
      have hne : before ≠ [] := List.ne_nil_of_length_pos (by omega)
      have hfeed : all[before.length - 1]? = some lineFeed := by
        rw [h.eq, List.getElem?_append_left (by omega), ← List.getLast?_eq_getElem?, hbefore hne]
      have := hs.stop_of_lineFeed hfeed (by omega)
      omega
    · by_contra hs'
      -- One that ends later has the line feed of this one inside it.
      have hne : after ≠ [] := by
        have hlength := congrArg List.length (hs.eq.symm.trans h.eq)
        simp only [List.length_append] at hlength
        exact List.ne_nil_of_length_pos (by omega)
      have hfeed : all[before.length + (stretch.length - 1)]? = some lineFeed := by
        rw [h.eq, List.getElem?_append_right (by omega), Nat.add_sub_cancel_left,
          List.getElem?_append_left (by omega), ← List.getLast?_eq_getElem?, hafter hne]
      have := hs.stop_of_lineFeed hfeed (by omega)
      omega

/-- There is one widest stretch around a byte. -/
theorem WidestAt.unique (h : WidestAt all offset before stretch after)
    (hs : WidestAt all offset b s a) : before = b ∧ stretch = s := by
  have hle := h.widest hs.toStretchAt
  have hge := hs.widest h.toStretchAt
  have heq := h.eq.symm.trans hs.eq
  obtain ⟨hb, hrest⟩ := List.append_inj heq (by omega)
  exact ⟨hb, (List.append_inj hrest (by omega)).1⟩

end Stretches

/-! ### The line of a byte -/

/-- The line of a byte is the widest stretch around it, its number counts the line feeds before the
byte, and its column the bytes of the line before it. -/
theorem Line.IsAt.widestAt (h : l.IsAt text offset) : ∃ before after,
    WidestAt (bytes text) offset before (bytes l.text) after ∧
      l.number = 1 + ((bytes text).take offset).count lineFeed ∧
      before.length + l.column = offset ∧ l.column < (bytes l.text).length := by
  obtain ⟨above, below, hlines, hnumber, hoffset, hcolumn⟩ := h
  have habove : ∀ line ∈ above, Ended line := fun _ => ended_of_mem_above hlines
  have hbytes : bytes text = bytes above.flatten ++ (bytes l.text ++ bytes below.flatten) := by
    rw [← flatten_lines text, hlines, List.flatten_append, List.flatten_cons, bytes_append,
      bytes_append]
  have hmem : l.text ∈ lines text := by simp [hlines]
  have hfeed := lineFeed_not_mem_dropLast_bytes hmem
  have hstretch : StretchAt (bytes text) offset (bytes above.flatten) (bytes l.text)
      (bytes below.flatten) := by
    refine ⟨hbytes, ?_, ?_, hfeed⟩ <;> simp only [length_bytes] <;> omega
  refine ⟨_, _, hstretch.widestAt (getLast?_of_ended habove) fun hne => ?_, ?_, ?_, ?_⟩
  · cases below with
    | nil => exact absurd rfl hne
    | cons next below => exact (ended_of_lines_eq hlines).getLast?
  · have hnone : ((bytes l.text).take l.column).count lineFeed = 0 := by
      refine List.count_eq_zero.2 fun hmem => hfeed ?_
      rw [List.dropLast_eq_take]
      exact List.take_subset_take_left _ (by rw [length_bytes]; omega) hmem
    rw [hbytes, hoffset, ← length_bytes, List.take_length_add_append, List.take_append_of_le_length,
      List.count_append, hnone, count_lineFeed_of_ended habove, hnumber, Nat.add_zero]
    rw [length_bytes]
    omega
  · rw [length_bytes, hoffset]
  · rwa [length_bytes]

/-- The line of a byte is found exactly: none is for an offset at or past the end of the text, and
otherwise it is the widest stretch around the byte that has no line feed before its last byte, with
the number of line feeds before the byte and its distance from the start of the line. -/
theorem lineAt?_exact (text : List Char) (offset : Nat) :
    (lineAt? text offset = none ↔ (bytes text).length ≤ offset) ∧
      ∀ l : Line, lineAt? text offset = some l ↔ ∃ before after,
        WidestAt (bytes text) offset before (bytes l.text) after ∧
          l.number = 1 + ((bytes text).take offset).count lineFeed ∧
          before.length + l.column = offset ∧ l.column < (bytes l.text).length := by
  refine ⟨⟨fun hnone => ?_, fun hle => ?_⟩, fun l => ⟨fun h => ?_, fun h => ?_⟩⟩
  · by_contra hlt
    rw [length_bytes, Nat.not_le] at hlt
    obtain ⟨l, hl⟩ := exists_lineAt? hlt
    cases hnone.symm.trans hl
  · refine Option.eq_none_iff_forall_ne_some.2 fun l hl => ?_
    obtain ⟨before, after, hwidest, -⟩ := (lineAt?_eq_some_iff.1 hl).widestAt
    have hlt := hwidest.lt_stop
    have hlength := congrArg List.length hwidest.eq
    simp only [List.length_append] at hlength
    omega
  · exact (lineAt?_eq_some_iff.1 h).widestAt
  · obtain ⟨before, after, hwidest, hnumber, hcolumn, -⟩ := h
    have hlt : offset < byteSize text := by
      have hlt := hwidest.lt_stop
      have hlength := congrArg List.length hwidest.eq
      simp only [List.length_append, length_bytes] at hlength hlt
      omega
    obtain ⟨found, hfound⟩ := exists_lineAt? hlt
    obtain ⟨_, _, hwidest', hnumber', hcolumn', -⟩ := (lineAt?_eq_some_iff.1 hfound).widestAt
    obtain ⟨rfl, htext⟩ := hwidest.unique hwidest'
    have hl : l = found := by
      cases l
      cases found
      simp only [Line.mk.injEq]
      exact ⟨hnumber.trans hnumber'.symm, bytes_injective htext, by simp only at *; omega⟩
    rw [hl, hfound]

/-- A line feed belongs to the line that it ends. -/
example : lineAt? "é\n\nb".toList 2 = some ⟨1, "é\n".toList, 2⟩ := by decide

end Offside.Text
