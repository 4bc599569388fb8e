import Offside.Proofs.Scan.Run
import Offside.Tree

/-! Where the scanner's tokens stand. The place of the scanner cuts the source in two; so the span
of a token is that of its text, and tokens stand one after the other. Offsets are exact because the
source has less than `2 ^ 32` bytes. -/
namespace Offside

namespace Place

/-- A place in a source: what is to come is the source without what stands before. -/
def In (file : String) (source : List Char) (p : Place) : Prop :=
  p.file = file ∧ ∃ before, source = before ++ p.rest ∧ p.offset = Text.byteSize before

variable {file : String} {source : List Char} {p : Place}

theorem In.front (file : String) (source : List Char) : (front file source).In file source :=
  ⟨rfl, [], rfl, rfl⟩

theorem In.skip (h : p.In file source) (n : Nat) : (p.skip n).In file source := by
  obtain ⟨hfile, before, hsource, hoffset⟩ := h
  refine ⟨hfile, before ++ p.rest.take n, ?_, ?_⟩
  · rw [rest_skip, List.append_assoc, List.take_append_drop, hsource]
  · simp only [Place.skip, Text.byteSize_append, hoffset]

theorem In.lineStart (h : p.In file source) : p.lineStart.1.In file source := by
  fun_induction Place.lineStart p with
  | case1 p hrest => exact h.skip _
  | case2 p c rest hrest hc ih => exact ih (h.skip _)
  | case3 p c rest hrest hc => exact h.skip _

theorem In.offset_le (h : p.In file source) : p.offset ≤ Text.byteSize source := by
  obtain ⟨-, before, rfl, hoffset⟩ := h
  rw [hoffset, Text.byteSize_append]
  exact Nat.le_add_right _ _

theorem offset_le_skip (p : Place) (n : Nat) : p.offset ≤ (p.skip n).offset := Nat.le_add_right _ _

theorem offset_le_lineStart (p : Place) : p.offset ≤ p.lineStart.1.offset := by
  fun_induction Place.lineStart p with
  | case1 p hrest => exact offset_le_skip p _
  | case2 p c rest hrest hc ih => exact Nat.le_trans (offset_le_skip p _) ih
  | case3 p c rest hrest hc => exact offset_le_skip p _

theorem In.toNat_position (hsize : Text.byteSize source < UInt32.size) (h : p.In file source) :
    p.position.offset.toNat = p.offset :=
  UInt32.toNat_ofNat_of_lt' (Nat.lt_of_le_of_lt h.offset_le hsize)

/-- The span of the next characters covers them. -/
theorem In.slice?_span (hsize : Text.byteSize source < UInt32.size) (h : p.In file source)
    {v : List Char} (hv : v <+: p.rest) : Text.slice? source
      (p.span v.length).start.offset.toNat (p.span v.length).stop.offset.toNat = some v := by
  obtain ⟨after, hafter⟩ := hv
  have hstop := (h.skip v.length).toNat_position hsize
  have hstart := h.toNat_position hsize
  obtain ⟨-, before, hsource, hoffset⟩ := h
  have htake : p.rest.take v.length = v := by rw [← hafter, List.take_left]
  have hskip : (p.skip v.length).offset = Text.byteSize before + Text.byteSize v := by
    rw [Place.skip, htake, hoffset]
  rw [Place.span, hstart, hstop, hskip, hoffset, hsource, ← hafter, Text.slice?_append]

theorem In.text_span (hsize : Text.byteSize source < UInt32.size) (h : p.In file source)
    {v : List Char} (hv : v <+: p.rest) : (p.span v.length).text source = String.ofList v := by
  rw [Span.text, h.slice?_span hsize hv, Option.getD_some]

end Place

/-- Spans that stand one after the other from one offset to another. -/
def SpansBetween (start stop : Nat) : List Span → Prop
  | [] => start ≤ stop
  | s :: rest => start ≤ s.start.offset.toNat ∧ s.start.offset.toNat ≤ s.stop.offset.toNat ∧
      SpansBetween s.stop.offset.toNat stop rest

namespace SpansBetween

variable {i j k : Nat} {u v : List Span} {s : Span}

theorem le (h : SpansBetween i j u) : i ≤ j := by
  induction u generalizing i with
  | nil => exact h
  | cons s u ih => exact Nat.le_trans h.1 (Nat.le_trans h.2.1 (ih h.2.2))

theorem append (hu : SpansBetween i j u) (hv : SpansBetween j k v) : SpansBetween i k (u ++ v) := by
  induction u generalizing i with
  | nil =>
    cases v with
    | nil => exact Nat.le_trans hu hv
    | cons s v => exact ⟨Nat.le_trans hu hv.1, hv.2⟩
  | cons s u ih => exact ⟨hu.1, hu.2.1, ih hu.2.2⟩

theorem of_append (h : SpansBetween i k (u ++ v)) :
    ∃ j, SpansBetween i j u ∧ SpansBetween j k v := by
  induction u generalizing i with
  | nil => exact ⟨i, Nat.le_refl i, h⟩
  | cons s u ih =>
    obtain ⟨j, hu, hv⟩ := ih h.2.2
    exact ⟨j, ⟨h.1, h.2.1, hu⟩, hv⟩

/-- Each span stands between the offsets. -/
theorem of_mem (h : SpansBetween i j u) (hs : s ∈ u) : i ≤ s.start.offset.toNat ∧
    s.start.offset.toNat ≤ s.stop.offset.toNat ∧ s.stop.offset.toNat ≤ j := by
  obtain ⟨v, w, rfl⟩ := List.append_of_mem hs
  obtain ⟨k, hv, hw⟩ := h.of_append
  exact ⟨Nat.le_trans hv.le hw.1, hw.2.1, hw.2.2.le⟩

/-- Each span starts where those before it have ended, or later. -/
theorem pairwise (h : SpansBetween i j u) :
    u.Pairwise fun a b => a.stop.offset.toNat ≤ b.start.offset.toNat := by
  induction u generalizing i with
  | nil => exact .nil
  | cons s u ih => exact .cons (fun other hother => (h.2.2.of_mem hother).1) (ih h.2.2)

end SpansBetween

/-- Tokens that stand one after the other from one offset to another. -/
def TokensBetween (start stop : Nat) : List Token → Prop
  | [] => start ≤ stop
  | tok :: rest => start ≤ tok.span.start.offset.toNat ∧
      tok.span.start.offset.toNat ≤ tok.span.stop.offset.toNat ∧
      TokensBetween tok.span.stop.offset.toNat stop rest

theorem tokensBetween_iff {i j : Nat} {u : List Token} :
    TokensBetween i j u ↔ SpansBetween i j (u.map Token.span) := by
  induction u generalizing i with
  | nil => exact Iff.rfl
  | cons tok u ih => exact and_congr_right fun _ => and_congr_right fun _ => ih

namespace TokensBetween

variable {i j k : Nat} {u v : List Token} {tok : Token}

theorem le (h : TokensBetween i j u) : i ≤ j := (tokensBetween_iff.1 h).le

theorem append (hu : TokensBetween i j u) (hv : TokensBetween j k v) :
    TokensBetween i k (u ++ v) := by
  rw [tokensBetween_iff, List.map_append]
  exact (tokensBetween_iff.1 hu).append (tokensBetween_iff.1 hv)

theorem of_append (h : TokensBetween i k (u ++ v)) :
    ∃ j, TokensBetween i j u ∧ TokensBetween j k v := by
  rw [tokensBetween_iff, List.map_append] at h
  obtain ⟨j, hu, hv⟩ := h.of_append
  exact ⟨j, tokensBetween_iff.2 hu, tokensBetween_iff.2 hv⟩

/-- Each token stands between the offsets. -/
theorem of_mem (h : TokensBetween i j u) (htok : tok ∈ u) : i ≤ tok.span.start.offset.toNat ∧
    tok.span.start.offset.toNat ≤ tok.span.stop.offset.toNat ∧
      tok.span.stop.offset.toNat ≤ j :=
  (tokensBetween_iff.1 h).of_mem (List.mem_map_of_mem htok)

/-- Each token starts where those before it have ended, or later. -/
theorem pairwise (h : TokensBetween i j u) :
    u.Pairwise fun a b => a.span.stop.offset.toNat ≤ b.span.start.offset.toNat :=
  List.pairwise_map.1 (tokensBetween_iff.1 h).pairwise

end TokensBetween

namespace Scanner

variable {file : String} {source : List Char} {tokens : List Token} {s s' : Scanner}

theorem Enters.place (h : s.Enters tokens s') : s'.place = s.place.lineStart.1 := by
  cases h <;> simp [*]

theorem Enters.place_in (hs : s.place.In file source) (h : s.Enters tokens s') :
    s'.place.In file source := by
  rw [h.place]
  exact hs.lineStart

/-- The layout in front of a line stands where the line is entered. -/
theorem Enters.span_eq (h : s.Enters tokens s') :
    ∀ tok ∈ tokens, tok.span = .point s'.place.position := by
  intro tok htok
  cases h with
  | ended => cases htok
  | wider => rw [List.mem_singleton.1 htok]; rfl
  | level => rw [List.eq_of_mem_replicate htok]; rfl

/-- Layout tokens have no width. -/
theorem tokensBetween_layout {i j n : Nat} {p : Position} (k : TokenKind)
    (hi : i ≤ p.offset.toNat) (hj : p.offset.toNat ≤ j) :
    TokensBetween i j (List.replicate n (.layout k p)) := by
  induction n generalizing i with
  | zero => exact Nat.le_trans hi hj
  | succ n ih => exact ⟨hi, Nat.le_refl _, ih (Nat.le_refl _)⟩

theorem Enters.tokensBetween (hsize : Text.byteSize source < UInt32.size)
    (hs : s.place.In file source) (h : s.Enters tokens s') :
    TokensBetween s.place.offset s'.place.offset tokens := by
  have hle : s.place.offset ≤ s'.place.offset := by
    rw [h.place]
    exact s.place.offset_le_lineStart
  have hposition := (h.place_in hs).toNat_position hsize
  cases h with
  | ended => exact hle
  | wider =>
    exact tokensBetween_layout (n := 1) .indent (Nat.le_trans hle (Nat.le_of_eq hposition.symm))
      (Nat.le_of_eq hposition)
  | level =>
    exact tokensBetween_layout .dedent (Nat.le_trans hle (Nat.le_of_eq hposition.symm))
      (Nat.le_of_eq hposition)

theorem endLine_eq_replicate (s : Scanner) :
    ∃ n, s.endLine = List.replicate n (.layout .newline s.place.position) := by
  unfold endLine
  split
  · exact ⟨1, rfl⟩
  · exact ⟨0, rfl⟩

theorem Step.place (hs : s.place.In file source) (h : s.Step tokens s') :
    s'.place.In file source := by
  cases h with
  | joined => exact hs.skip _
  | broken _ _ hentered => exact hentered.place_in (hs.skip _)
  | blank => exact hs.skip _
  | token => exact hs.skip _

/-- The tokens of a step stand between the places before and after it. -/
theorem Step.tokensBetween (hsize : Text.byteSize source < UInt32.size)
    (hs : s.place.In file source) (h : s.Step tokens s') :
    TokensBetween s.place.offset s'.place.offset tokens := by
  have hposition := hs.toNat_position hsize
  cases h with
  | joined => exact s.place.offset_le_skip _
  | @broken value _ _ _ _ hentered =>
    obtain ⟨n, hn⟩ := s.endLine_eq_replicate
    have hnext := hentered.tokensBetween hsize (hs.skip _)
    refine TokensBetween.append (j := (s.place.skip value.length).offset) ?_ hnext
    rw [hn]
    exact tokensBetween_layout .newline (Nat.le_of_eq hposition.symm)
      (Nat.le_trans (Nat.le_of_eq hposition) (s.place.offset_le_skip _))
  | blank => exact s.place.offset_le_skip _
  | @token kind value hlexeme =>
    have hstop := (hs.skip value.length).toNat_position hsize
    have hle := s.place.offset_le_skip value.length
    exact ⟨Nat.le_of_eq hposition.symm, by simp only [Place.span, hposition, hstop, hle],
      Nat.le_of_eq hstop⟩

theorem Reaches.place (h : Reaches file source tokens s) : s.place.In file source := by
  induction h with
  | start hentered => exact hentered.place_in (Place.In.front file source)
  | step _ hstep ih => exact hstep.place ih

/-- Tokens are emitted in the order in which they stand. -/
theorem Reaches.tokensBetween (hsize : Text.byteSize source < UInt32.size)
    (h : Reaches file source tokens s) : TokensBetween 0 s.place.offset tokens := by
  induction h with
  | start hentered => exact hentered.tokensBetween hsize (Place.In.front file source)
  | step hbefore hstep ih => exact ih.append (hstep.tokensBetween hsize hbefore.place)

theorem tokensBetween_finish (hsize : Text.byteSize source < UInt32.size)
    (hs : s.place.In file source) :
    TokensBetween s.place.offset (Text.byteSize source) s.finish := by
  have hposition := hs.toNat_position hsize
  have hge := Nat.le_of_eq hposition.symm
  have hle := Nat.le_of_eq hposition
  obtain ⟨n, hn⟩ := s.endLine_eq_replicate
  rw [finish, hn]
  exact ((tokensBetween_layout .newline hge hle).append
    (tokensBetween_layout .dedent hge hle)).append
      ⟨hge, Nat.le_refl _, Nat.le_trans hle hs.offset_le⟩

end Scanner

/-- The tokens of a source stand in it one after the other. -/
theorem tokensBetween_of_tokenize {file : String} {source : List Char} {tokens : List Token}
    (hsize : Text.byteSize source < UInt32.size) (h : tokenize file source = .ok tokens) :
    TokensBetween 0 (Text.byteSize source) tokens := by
  obtain ⟨front, last, hlast, -, rfl⟩ := reaches_of_tokenize h
  exact (hlast.tokensBetween hsize).append (Scanner.tokensBetween_finish hsize hlast.place)

end Offside
