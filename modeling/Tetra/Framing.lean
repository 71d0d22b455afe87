import Mathlib

/-!
A stream of frames, read piece by piece: which frames have come in whole, and the part of
the next one.
-/
namespace Tetra.Framing

section
variable {α : Type*}

/-- The stream so far is some whole frames and a part of the next; the part is not yet
    the whole frame. -/
structure Cut (frames done rest : List (List α)) (stream part : List α) : Prop where
  frames_eq : frames = done ++ rest
  stream_eq : stream = done.flatten ++ part
  short : (rest = [] ∧ part = []) ∨ ∃ frame later, rest = frame :: later ∧ part <+: frame ∧ part ≠ frame

variable {frames done rest : List (List α)} {stream part : List α}

theorem cut_nil (filled : ∀ frame ∈ frames, frame ≠ []) : Cut frames [] frames [] [] := by
  refine ⟨rfl,rfl,?_⟩
  cases frames with
  | nil => exact .inl ⟨rfl,rfl⟩
  | cons frame later => exact .inr ⟨frame,later,rfl,List.nil_prefix,(filled frame (List.mem_cons_self ..)).symm⟩

/-- More frames may follow. -/
theorem Cut.more (cut : Cut frames done rest stream part) {frame : List α} (filled : frame ≠ []) :
    Cut (frames ++ [frame]) done (rest ++ [frame]) stream part := by
  refine ⟨by rw [cut.frames_eq,List.append_assoc],cut.stream_eq,?_⟩
  rcases cut.short with ⟨rfl,rfl⟩ | ⟨first,later,rfl,isPrefix,strict⟩
  · exact .inr ⟨frame,[],rfl,List.nil_prefix,filled.symm⟩
  · exact .inr ⟨first,later ++ [frame],rfl,isPrefix,strict⟩

/-- What comes next belongs to the first frame that is not whole, as far as that goes. -/
theorem Cut.next (cut : Cut frames done rest stream part) {piece : List α} (some' : piece ≠ []) (fits : stream ++ piece <+: frames.flatten) :
    ∃ frame later, rest = frame :: later ∧ part <+: frame ∧ part ≠ frame ∧
      ∀ n, n ≤ frame.length-part.length → part ++ piece.take n <+: frame := by
  rw [cut.frames_eq,cut.stream_eq,List.flatten_append,List.append_assoc,List.prefix_append_right_inj] at fits
  rcases cut.short with ⟨rfl,rfl⟩ | ⟨frame,later,rfl,isPrefix,strict⟩
  · rw [List.nil_append,List.flatten_nil,List.prefix_nil] at fits
    exact absurd fits some'
  · refine ⟨frame,later,rfl,isPrefix,strict,fun n low => ?_⟩
    have inStream : part ++ piece.take n <+: frame ++ later.flatten :=
      ((List.prefix_append_right_inj part).mpr (List.take_prefix n piece)).trans fits
    have short : (part ++ piece.take n).length ≤ frame.length := by
      have := isPrefix.length_le
      rw [List.length_append,List.length_take]
      omega
    exact List.prefix_of_prefix_length_le inStream (List.prefix_append frame later.flatten) short

/-- A bite that leaves the frame unfinished. -/
theorem Cut.grow {frame : List α} {later : List (List α)} (cut : Cut frames done (frame :: later) stream part) {bite : List α}
    (isPrefix : part ++ bite <+: frame) (strict : part ++ bite ≠ frame) :
    Cut frames done (frame :: later) (stream ++ bite) (part ++ bite) :=
  ⟨cut.frames_eq,by rw [cut.stream_eq,List.append_assoc],.inr ⟨frame,later,rfl,isPrefix,strict⟩⟩

/-- A bite that ends the frame. -/
theorem Cut.finish {frame : List α} {later : List (List α)} (cut : Cut frames done (frame :: later) stream part) {bite : List α}
    (whole : part ++ bite = frame) (filled : ∀ frame ∈ later, frame ≠ []) : Cut frames (done ++ [frame]) later (stream ++ bite) [] := by
  refine ⟨by rw [cut.frames_eq,List.append_assoc]; rfl,?_,?_⟩
  · rw [cut.stream_eq,← whole,List.append_assoc]
    simp
  · cases later with
    | nil => exact .inl ⟨rfl,rfl⟩
    | cons next later => exact .inr ⟨next,later,rfl,List.nil_prefix,(filled next (List.mem_cons_self ..)).symm⟩

/-- With the whole stream come all the frames. -/
theorem Cut.whole (cut : Cut frames done rest frames.flatten part) : done = frames ∧ part = [] := by
  have all := cut.stream_eq
  rw [cut.frames_eq,List.flatten_append,List.append_cancel_left_eq] at all
  rcases cut.short with ⟨rfl,rfl⟩ | ⟨frame,later,rfl,isPrefix,strict⟩
  · exact ⟨by rw [cut.frames_eq,List.append_nil],rfl⟩
  · rw [List.flatten_cons] at all
    have long := congrArg List.length all
    rw [List.length_append] at long
    exact absurd (isPrefix.eq_of_length (by have := isPrefix.length_le; omega)) strict

end

end Tetra.Framing
