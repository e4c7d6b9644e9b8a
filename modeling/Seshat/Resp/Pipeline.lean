/-
Pipelines of frames of every kind.  Scalars and aggregates follow one another and arrive in
chunks that need not end where a frame does.  Where each scalar survives its cuts and each
aggregate is cut between its elements or in its length line only, the values arrive as in
one piece.
-/
import Seshat.Resp.Aggregates
import Seshat.Resp.Scalars

namespace Seshat

open Decimal RespValue

/-- A frame of a pipeline: a scalar as it is on the wire, or an encoded aggregate. -/
inductive PipeFrame where
  | scalar (frame : Scalar)
  | aggregate (value : RespValue)

section

variable [F64Text]

namespace PipeFrame

def bytes : PipeFrame → Bytes
  | .scalar frame => frame.bytes
  | .aggregate value => encode value

def Means (p : RespParser) : PipeFrame → RespValue → Prop
  | .scalar frame, value => frame.Means p value
  | .aggregate encoded, value =>
      encoded.isAggregate = true ∧ Admits p encoded ∧ value = encoded

/-- An aggregate survives the cuts in its length line that do not tear its CRLF, and those
between elements. -/
def Survives (chunks : List Bytes) : PipeFrame → Prop
  | .scalar frame => frame.Survives chunks
  | .aggregate value =>
      ∀ pre post, Chunks.take (encode value).length chunks = pre ++ post →
        AtBoundary value pre.flatten

/-- A scalar may be cut anywhere, an aggregate where it survives. -/
def KeepsElements (chunks : List Bytes) : PipeFrame → Prop
  | .scalar _ => True
  | .aggregate value => (aggregate value).Survives chunks

end PipeFrame

/-- Every frame of the pipeline meets the condition, given the chunks from its beginning
on. -/
def Along (C : List Bytes → PipeFrame → Prop) : List PipeFrame → List Bytes → Prop
  | [], _ => True
  | frame :: frames, chunks =>
      C chunks frame ∧ Along C frames (Chunks.drop frame.bytes.length chunks)

variable {p : RespParser}

theorem UsesUp.feedChunks {q : RespParser} {pre : List Bytes} (h : UsesUp p pre q)
    (chunks : List Bytes) :
    Seshat.feedChunks ⟨p, []⟩ (pre ++ chunks) = Seshat.feedChunks ⟨q, []⟩ chunks := by
  induction h with
  | nil p => rfl
  | cons hparse _ ih =>
      rw [List.cons_append, feedChunks_none ⟨_, []⟩ _ hparse]
      exact ih

/-- An aggregate that survives its cuts comes next, and the stream goes on behind it. -/
theorem feedChunks_aggregate {value : RespValue} (hidle : p.Idle) (hadmits : Admits p value)
    (hagg : value.isAggregate = true) {rest : Bytes} {chunks : List Bytes}
    (heq : chunks.flatten = encode value ++ rest)
    (hsurvives : (PipeFrame.aggregate value).Survives chunks) :
    Yields p value (Chunks.drop (encode value).length chunks) (feedChunks ⟨p, []⟩ chunks) := by
  obtain ⟨pre, last, left, behind, rfl, hcover, hlast, htake, hdrop, -⟩ :=
    Chunks.cover (encode_ne_nil value) heq
  have hcuts : ∀ before after, pre = before ++ after →
      AtBoundary value ([] ++ before.flatten) := by
    intro before after hsplit
    refine hsurvives before (after ++ [last]) ?_
    rw [htake, hsplit, List.append_assoc]
  obtain ⟨q, huses, hprogress⟩ := (Progress.start p value).usesUp hidle hadmits hagg
    (by rw [List.nil_append, hcover]) hlast hcuts
  have hparse := hprogress.complete hidle hadmits hagg (by rw [List.nil_append, hcover]) left
  rw [Yields, hdrop, huses.feedChunks]
  exact feedChunks_some ⟨q, []⟩ (last ++ left) hparse behind

omit [F64Text] in
theorem Scalar.bytes_ne_nil (frame : Scalar) : frame.bytes ≠ [] := by
  cases frame with
  | boolean b => cases b <;> simp [Scalar.bytes]
  | _ => simp [Scalar.bytes]

theorem PipeFrame.bytes_ne_nil (frame : PipeFrame) : frame.bytes ≠ [] := by
  cases frame with
  | scalar frame => exact frame.bytes_ne_nil
  | aggregate value => exact encode_ne_nil value

/-- A frame that survives its cuts comes next; a scalar that does not is not what comes. -/
theorem feedChunks_pipeFrame (hidle : p.Idle) {frame : PipeFrame} {value : RespValue}
    (hmeans : frame.Means p value) {rest : Bytes} {chunks : List Bytes}
    (heq : chunks.flatten = frame.bytes ++ rest) (hkeeps : frame.KeepsElements chunks) :
    (frame.Survives chunks ∧
      Yields p value (Chunks.drop frame.bytes.length chunks) (feedChunks ⟨p, []⟩ chunks)) ∨
    (¬ frame.Survives chunks ∧ (feedChunks ⟨p, []⟩ chunks).1.head? ≠ some value) := by
  cases frame with
  | scalar frame =>
      have hscalar : frame.Means p value := hmeans
      exact feedChunks_frame hidle.state_eq hscalar heq
  | aggregate encoded =>
      obtain ⟨hagg, hadmits, rfl⟩ := hmeans
      exact Or.inl ⟨hkeeps, feedChunks_aggregate hidle hadmits hagg heq hkeeps⟩

/-- For every pipeline of frames of every kind within the limits, in chunks that do not cut
into the elements of an aggregate: all values arrive, in order and without an error,
exactly if every scalar survives the cuts that fall into it. -/
theorem feedChunks_pipeline_iff (p : RespParser) (hidle : p.Idle)
    (frames : List (PipeFrame × RespValue))
    (hframes : ∀ frame ∈ frames, frame.1.Means p frame.2) (chunks : List Bytes)
    (heq : chunks.flatten = frames.flatMap fun frame => frame.1.bytes)
    (hkeeps : Along PipeFrame.KeepsElements (frames.map Prod.fst) chunks) :
    feedChunks ⟨p, []⟩ chunks = (frames.map Prod.snd, .ok none) ↔
      Along PipeFrame.Survives (frames.map Prod.fst) chunks := by
  induction frames generalizing chunks with
  | nil => simp [feedChunks_empty hidle.state_eq heq, Along]
  | cons frame frames ih =>
      rw [List.forall_mem_cons] at hframes
      rw [List.flatMap_cons] at heq
      obtain ⟨hkeep, hkeeps⟩ := hkeeps
      rw [List.map_cons, List.map_cons, Along]
      rcases feedChunks_pipeFrame hidle hframes.1 heq hkeep with
        ⟨hsurvives, hyields⟩ | ⟨hlost, hhead⟩
      · have hrest : (Chunks.drop frame.1.bytes.length chunks).flatten =
            frames.flatMap fun frame => frame.1.bytes := by
          obtain ⟨-, -, left, behind, -, -, -, -, hdrop, hflat⟩ :=
            Chunks.cover frame.1.bytes_ne_nil heq
          rw [hdrop, hflat]
        have hih := ih hframes.2 _ hrest hkeeps
        rw [hyields, and_iff_right hsurvives, ← hih, Prod.mk.injEq, List.cons.injEq,
          Prod.ext_iff]
        simp
      · refine iff_of_false (fun hfeed => hhead ?_) fun hall => hlost hall.1
        rw [hfeed]
        rfl

end

namespace Witness

/-- The map in its chunks behind a text. -/
theorem onePair_keeps : (PipeFrame.aggregate onePair).Survives
    [ascii "%1", ascii "\r\n+k\r\n", ascii ":1\r\n:2\r\n"] := by
  intro pre post hsplit
  have hpre : pre ∈ List.inits _ := (List.mem_inits _ _).mpr ⟨post, hsplit.symm⟩
  rw [show Chunks.take (encode onePair).length [ascii "%1", ascii "\r\n+k\r\n",
    ascii ":1\r\n:2\r\n"] = [ascii "%1", ascii "\r\n+k\r\n", ascii ":1\r\n"] by decide] at hpre
  simp only [List.inits, List.map_cons, List.map_nil, List.mem_cons, List.not_mem_nil,
    or_false] at hpre
  rcases hpre with rfl | rfl | rfl | rfl
  · exact Or.inl ⟨ascii "%1\r\n", rfl, by decide⟩
  · exact Or.inl ⟨ascii "\r\n", rfl, by decide⟩
  · exact Or.inr ⟨[.simpleString (ascii "k")], [.integer 1], rfl, rfl⟩
  · exact Or.inr ⟨_, [], (List.append_nil _).symm, rfl⟩

/-- A text, a map and a number; the text and the map are cut. -/
def pipeChunks : List Bytes :=
  [ascii "+O", ascii "K\r\n%1", ascii "\r\n+k\r\n", ascii ":1\r\n:2\r\n"]

theorem pipeChunks_arrive : feedChunks ⟨RespParser.new, []⟩ pipeChunks =
    ([.simpleString (ascii "OK"), onePair, .integer 2], .ok none) := by
  refine (feedChunks_pipeline_iff RespParser.new idle_new
    [(.scalar (.line .simpleString (ascii "OK")), .simpleString (ascii "OK")),
      (.aggregate onePair, onePair), (.scalar (.line .integer (ascii "2")), .integer 2)]
    ?_ pipeChunks rfl ?_).mpr ?_
  · simp only [List.forall_mem_cons, List.not_mem_nil, false_implies, implies_true, and_true]
    exact ⟨⟨by decide, rfl⟩, ⟨rfl, admits_onePair, rfl⟩, ⟨by decide, rfl⟩⟩
  · exact ⟨trivial, onePair_keeps, trivial, trivial⟩
  · refine ⟨?_, onePair_keeps, ?_, trivial⟩
    · exact (by decide : (Scalar.line .simpleString (ascii "OK")).Survives pipeChunks)
    · exact (by decide : (Scalar.line .integer (ascii "2")).Survives [ascii ":2\r\n"])

end Witness

end Seshat
