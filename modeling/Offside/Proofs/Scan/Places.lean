import Offside.Proofs.Scan.Errors

/-! Positions in a source. Every token of a source starts and ends between two of its characters,
and one that has a text starts at a character. -/
namespace Offside

namespace Position

variable {file : String} {source : List Char} {p : Position}

/-- A position of a source: between two of its characters, or at one of its ends. -/
def IsCut (file : String) (source : List Char) (p : Position) : Prop :=
  p.file = file ∧
    ∃ before after, source = before ++ after ∧ p.offset.toNat = Text.byteSize before

/-- A position of a source where a character starts. -/
def IsCharacter (file : String) (source : List Char) (p : Position) : Prop :=
  p.file = file ∧
    ∃ before c after, source = before ++ c :: after ∧ p.offset.toNat = Text.byteSize before

theorem IsCharacter.isCut (h : p.IsCharacter file source) : p.IsCut file source := by
  obtain ⟨hfile, before, c, after, hsource, hoffset⟩ := h
  exact ⟨hfile, before, c :: after, hsource, hoffset⟩

theorem IsCut.offset_le (h : p.IsCut file source) : p.offset.toNat ≤ Text.byteSize source := by
  obtain ⟨-, before, after, rfl, hoffset⟩ := h
  rw [hoffset, Text.byteSize_append]
  exact Nat.le_add_right _ _

theorem IsCharacter.offset_lt (h : p.IsCharacter file source) :
    p.offset.toNat < Text.byteSize source := by
  obtain ⟨-, before, c, after, rfl, hoffset⟩ := h
  have hpos := c.utf8Size_pos
  rw [hoffset, Text.byteSize_append, Text.byteSize_cons]
  omega

end Position

/-- Of two cuts of a text, the earlier has the text between them and what is behind it to come. -/
theorem Text.exists_between {a b c d : List Char} (h : a ++ b = c ++ d)
    (hle : byteSize a ≤ byteSize c) : ∃ v, c = a ++ v ∧ b = v ++ d := by
  obtain ⟨v, hc, hb⟩ | ⟨v, rfl, rfl⟩ := List.append_eq_append_iff.1 h
  · exact ⟨v, hc, hb⟩
  · cases v with
    | nil => exact ⟨[], by simp, rfl⟩
    | cons x v =>
      have hpos := x.utf8Size_pos
      rw [byteSize_append, byteSize_cons] at hle
      omega

/-- The text between two positions of a source is how the text up to a later position starts. -/
theorem Position.IsCut.exists_slice? {file : String} {source : List Char} {p q r : Position}
    (hp : p.IsCut file source) (hq : q.IsCut file source) (hr : r.IsCut file source)
    (hpq : p.offset.toNat ≤ q.offset.toNat) (hqr : q.offset.toNat ≤ r.offset.toNat) :
    ∃ v w, Text.slice? source p.offset.toNat q.offset.toNat = some v ∧
      Text.slice? source p.offset.toNat r.offset.toNat = some (v ++ w) := by
  obtain ⟨-, a, rest, rfl, ha⟩ := hp
  obtain ⟨-, b, more, hb, hqb⟩ := hq
  obtain ⟨-, c, after, hc, hrc⟩ := hr
  rw [ha, hqb] at hpq
  rw [hqb, hrc] at hqr
  obtain ⟨v, rfl, rfl⟩ := Text.exists_between hb hpq
  obtain ⟨w, rfl, rfl⟩ := Text.exists_between (hb.symm.trans hc) hqr
  refine ⟨v, w, ?_, ?_⟩
  · rw [ha, hqb, Text.byteSize_append, Text.slice?_append]
  · rw [ha, hrc, List.append_assoc, Text.byteSize_append, ← List.append_assoc v w after,
      Text.slice?_append]

variable {file : String} {source : List Char} {tok : Token}

theorem Place.In.isCut {p : Place} (hsize : Text.byteSize source < UInt32.size)
    (h : p.In file source) : p.position.IsCut file source := by
  have hoffset := h.toNat_position hsize
  obtain ⟨hfile, before, hsource, hbefore⟩ := h
  exact ⟨hfile, before, p.rest, hsource, hoffset.trans hbefore⟩

theorem Place.In.isCharacter {p : Place} (hsize : Text.byteSize source < UInt32.size)
    (h : p.In file source) (hrest : p.rest ≠ []) : p.position.IsCharacter file source := by
  have hoffset := h.toNat_position hsize
  obtain ⟨hfile, before, hsource, hbefore⟩ := h
  obtain ⟨c, after, hafter⟩ := List.exists_cons_of_ne_nil hrest
  exact ⟨hfile, before, c, after, hafter ▸ hsource, hoffset.trans hbefore⟩

/-- A span of a source, from the start of a character on. -/
def Span.IsStretch (file : String) (source : List Char) (s : Span) : Prop :=
  s.start.IsCharacter file source ∧ s.stop.IsCut file source

namespace Scanner.Emits

theorem isCut_start (hsize : Text.byteSize source < UInt32.size) (h : Emits file source tok) :
    tok.span.start.IsCut file source := by
  cases h with
  | layout hp => exact hp.isCut hsize
  | content hp => exact hp.isCut hsize

theorem isStretch (hsize : Text.byteSize source < UInt32.size) (h : Emits file source tok)
    (hcontent : tok.kind.isContent = true) : tok.span.IsStretch file source := by
  cases h with
  | layout _ hk => cases (TokenKind.isLayout_of_isContent hcontent).symm.trans hk
  | @content p _ value hp hl =>
    have hrest : p.rest ≠ [] := by
      intro hnil
      rw [hnil] at hl
      cases hl
    exact ⟨hp.isCharacter hsize hrest, (hp.skip value.length).isCut hsize⟩

end Scanner.Emits

/-- The tokens of a source are emitted at its places, and the one that closes them stands at one. -/
theorem emits_of_tokenize {tokens : List Token} (h : tokenize file source = .ok tokens) :
    ∃ front p, tokens = front ++ [.endAt (Place.position p)] ∧ p.In file source ∧
      ∀ tok ∈ front, Scanner.Emits file source tok := by
  obtain ⟨front, last, hlast, -, rfl⟩ := reaches_of_tokenize h
  refine ⟨front ++ (last.endLine ++
    List.replicate (last.levels.length - 1) (.layout .dedent last.place.position)), last.place,
    by simp [Scanner.finish], hlast.place, ?_⟩
  exact List.forall_mem_append.2 ⟨hlast.emits, List.forall_mem_append.2
    ⟨Scanner.emits_endLine hlast.place, Scanner.emits_replicate hlast.place rfl⟩⟩

/-- Each token of a source starts at a position of it. -/
theorem isCut_of_tokenize {tokens : List Token} (hsize : Text.byteSize source < UInt32.size)
    (h : tokenize file source = .ok tokens) :
    ∀ tok ∈ tokens, tok.span.start.IsCut file source := by
  obtain ⟨front, p, rfl, hp, hfront⟩ := emits_of_tokenize h
  refine List.forall_mem_append.2 ⟨fun tok htok => (hfront tok htok).isCut_start hsize, ?_⟩
  exact List.forall_mem_singleton.2 (hp.isCut hsize)

/-- The content of a source stands on stretches of it. -/
theorem isStretch_of_tokenize {front : List Token} {q : Position}
    (hsize : Text.byteSize source < UInt32.size)
    (h : tokenize file source = .ok (front ++ [.endAt q])) :
    ∀ tok ∈ front, tok.kind.isContent = true → tok.span.IsStretch file source := by
  obtain ⟨front', p, heq, -, hfront⟩ := emits_of_tokenize h
  obtain ⟨rfl, -⟩ := List.append_inj' heq rfl
  exact fun tok htok hcontent => (hfront tok htok).isStretch hsize hcontent

/-- The scanner stops where a character starts. -/
theorem isCharacter_of_tokenize {e : Error} (hsize : Text.byteSize source < UInt32.size)
    (h : tokenize file source = .error e) : e.position.IsCharacter file source := by
  obtain ⟨p, hp, hrest, hrefused⟩ := stops_of_tokenize h
  cases hrefused <;> exact hp.isCharacter hsize hrest

end Offside
