/-
Scalar frames in a stream.  A frame survives its cuts unless one of them tears a
CRLF the parser keeps half of, or falls into a null or a boolean, whose type byte
is consumed before the frame is complete.
-/
import Seshat.Resp.Streaming

namespace Seshat

open Decimal

/-- A frame that is no aggregate, by its parts on the wire. -/
inductive Scalar where
  | line (kind : LineKind) (payload : Bytes)
  | bulk (kind : BulkKind) (count body : Bytes)
  | nullBulk (kind : BulkKind) (count : Bytes)
  | null
  | boolean (b : Bool)
deriving DecidableEq

namespace Scalar

def bytes : Scalar → Bytes
  | .line kind payload => kind.marker :: payload ++ crlf
  | .bulk kind count body => kind.marker :: count ++ crlf ++ (body ++ crlf)
  | .nullBulk kind count => kind.marker :: count ++ crlf
  | .null => 95 :: crlf
  | .boolean true => 35 :: 116 :: crlf
  | .boolean false => 35 :: 102 :: crlf

/-- The frame is well formed within the parser's limits and means the value. -/
def Means [F64Text] (p : RespParser) : Scalar → RespValue → Prop
  | .line kind payload, value => CrlfFree payload ∧ kind.value payload = some value
  | .bulk kind count body, value =>
      (∃ len, parseI64 count = some len ∧ ¬ len < 0 ∧ body.length = len.toNatClampNeg) ∧
        body.length ≤ p.maxBulkSize ∧ kind.value body = some value
  | .nullBulk kind count, value => parseI64 count = some (-1) ∧ value = kind.null
  | .null, value => value = .null
  | .boolean b, value => value = .boolean b

/-- The cuts a frame survives, by the pieces it arrives in.  A body without
bytes is the exception: its CR may come with the length line and its LF with the
very next chunk. -/
def Survives (chunks : List Bytes) : Scalar → Prop
  | .line _ payload => ¬ Torn (Chunks.take (payload.length + 3) chunks)
  | .bulk _ count body =>
      let behind := Chunks.take (body.length + 2) (Chunks.drop (count.length + 3) chunks)
      ¬ Torn (Chunks.take (count.length + 3) chunks) ∧
        (¬ Torn behind ∨ (body = [] ∧ behind = [[13], [10]]))
  | .nullBulk _ count => ¬ Torn (Chunks.take (count.length + 3) chunks)
  | .null => (Chunks.take 3 chunks).getLast? = some (bytes .null)
  | .boolean b => (Chunks.take 4 chunks).getLast? = some (bytes (.boolean b))

instance decidableSurvives (chunks : List Bytes) :
    (frame : Scalar) → Decidable (frame.Survives chunks)
  | .line _ payload =>
      inferInstanceAs (Decidable (¬ Torn (Chunks.take (payload.length + 3) chunks)))
  | .bulk _ _ _ => inferInstanceAs (Decidable (_ ∧ (_ ∨ (_ ∧ _))))
  | .nullBulk _ count =>
      inferInstanceAs (Decidable (¬ Torn (Chunks.take (count.length + 3) chunks)))
  | .null => inferInstanceAs (Decidable (_ = _))
  | .boolean _ => inferInstanceAs (Decidable (_ = _))

end Scalar

/-- Every frame of the stream survives the cuts that fall into it. -/
def SurvivesAll : List Scalar → List Bytes → Prop
  | [], _ => True
  | frame :: frames, chunks =>
      frame.Survives chunks ∧ SurvivesAll frames (Chunks.drop frame.bytes.length chunks)

instance decidableSurvivesAll :
    (frames : List Scalar) → (chunks : List Bytes) → Decidable (SurvivesAll frames chunks)
  | [], _ => .isTrue trivial
  | frame :: frames, chunks =>
      have := decidableSurvivesAll frames (Chunks.drop frame.bytes.length chunks)
      inferInstanceAs (Decidable (_ ∧ _))

/-- The stream continues behind the value, from the idle parser. -/
def Yields [F64Text] (p : RespParser) (value : RespValue) (chunks : List Bytes)
    (answer : List RespValue × Outcome) : Prop :=
  answer = (value :: (feedChunks ⟨p, []⟩ chunks).1, (feedChunks ⟨p, []⟩ chunks).2)

section

variable [F64Text] {p : RespParser} (hp : p.state = .waitingForType)

include hp

theorem feedChunks_line_frame {kind : LineKind} {payload rest : Bytes} {value : RespValue}
    (hpayload : CrlfFree payload) (hvalue : kind.value payload = some value)
    {chunks : List Bytes} (heq : chunks.flatten = (kind.marker :: payload ++ crlf) ++ rest) :
    (Torn (Chunks.take (payload.length + 3) chunks) ∧
      (feedChunks ⟨p, []⟩ chunks).1.head? ≠ some value) ∨
    (¬ Torn (Chunks.take (payload.length + 3) chunks) ∧
      Yields p value (Chunks.drop (payload.length + 3) chunks) (feedChunks ⟨p, []⟩ chunks)) := by
  rcases feedChunks_arrives hp kind.markerState_marker (.line kind) hpayload heq with
    ⟨htorn, behind, hfeed⟩ | ⟨htorn, data, more, left, behind, rfl, hdrop, -, hfeed⟩
  · rw [hfeed]
    exact Or.inl ⟨htorn, feedChunks_spoiled_line hvalue rfl behind⟩
  · refine Or.inr ⟨htorn, ?_⟩
    have hparse := parse_line (p := p) hpayload.of_append_right hvalue left
    rw [← hp] at hparse
    rw [Yields, hdrop, hfeed]
    exact feedChunks_some ⟨{ p with state := .line kind data }, []⟩ _ hparse behind

theorem feedChunks_nullBulk_frame {kind : BulkKind} {count rest : Bytes}
    (hcount : parseI64 count = some (-1)) {chunks : List Bytes}
    (heq : chunks.flatten = (kind.marker :: count ++ crlf) ++ rest) :
    (Torn (Chunks.take (count.length + 3) chunks) ∧
      (feedChunks ⟨p, []⟩ chunks).1.head? ≠ some kind.null) ∨
    (¬ Torn (Chunks.take (count.length + 3) chunks) ∧
      Yields p kind.null (Chunks.drop (count.length + 3) chunks) (feedChunks ⟨p, []⟩ chunks)) := by
  have hline : CrlfFree count := crlfFree_of_cr_not_mem (cr_not_mem_of_parseI64 hcount)
  rcases feedChunks_arrives hp kind.markerState_marker (.bulkLen kind) hline heq with
    ⟨htorn, behind, hfeed⟩ | ⟨htorn, data, more, left, behind, rfl, hdrop, -, hfeed⟩
  · rw [hfeed, feedChunks_stuck (.bulkLen kind) ⟨_, rfl, by simp⟩]
    exact Or.inl ⟨htorn, by simp⟩
  · refine Or.inr ⟨htorn, ?_⟩
    have hparse : parse ⟨{ p with state := .bulkLen kind data }, more ++ (crlf ++ left)⟩ = _ :=
      parse_nullBulk hline.of_append_right hcount left
    rw [← hp] at hparse
    rw [Yields, hdrop, hfeed]
    exact feedChunks_some ⟨{ p with state := .bulkLen kind data }, []⟩ _ hparse behind

/-- A body that is open, whatever was read of its length line. -/
theorem feedChunks_body {kind : BulkKind} {body rest : Bytes} {value : RespValue}
    (hvalue : kind.value body = some value) {chunks : List Bytes}
    (heq : chunks.flatten = (body ++ crlf) ++ rest) :
    (Torn (Chunks.take (body.length + 2) chunks) ∧
      (feedChunks ⟨{ p with state := .bulkData kind body.length [] }, []⟩ chunks).1 = []) ∨
    (¬ Torn (Chunks.take (body.length + 2) chunks) ∧
      Yields p value (Chunks.drop (body.length + 2) chunks)
        (feedChunks ⟨{ p with state := .bulkData kind body.length [] }, []⟩ chunks)) := by
  obtain ⟨pre, last, left, behind, rfl, hcover, hlast, htake, hdrop, -⟩ :=
    Chunks.cover (by simp [crlf]) heq
  have hlength : (body ++ crlf).length = body.length + 2 := by
    simp [crlf]
  rw [hlength] at htake hdrop
  rw [htake, hdrop]
  have hmove : pre.flatten <+: body ++ [13] →
      feedChunks ⟨{ p with state := .bulkData kind body.length [] }, []⟩
          (pre ++ (last ++ left) :: behind) =
        feedChunks ⟨{ p with state := .bulkData kind body.length pre.flatten }, []⟩
          ((last ++ left) :: behind) := by
    refine fun hbegin => feedChunks_accumulate
      (fun data => { p with state := .bulkData kind body.length data }) ?_ [] hbegin _
    intro data chunk hdata
    have hlen := hdata.length_le
    simp only [List.length_append, List.length_singleton] at hlen
    exact parse_bulkData_more rfl (by omega)
  rcases torn_or_crlf hlast hcover with ⟨htorn, rfl, hpre⟩ | ⟨htorn, tail, rfl, hpre⟩
  · refine Or.inl ⟨htorn, ?_⟩
    rw [hmove (hpre ▸ List.prefix_rfl), hpre]
    exact feedChunks_stranded rfl (by simp) (by simp)
  · refine Or.inr ⟨htorn, ?_⟩
    have hbegin : pre.flatten <+: body ++ [13] := by
      rw [← hpre, List.append_assoc]
      exact List.prefix_append _ _
    have hparse : parse ⟨{ p with state := .bulkData kind body.length pre.flatten },
        tail ++ (crlf ++ left)⟩ = _ :=
      parse_bulkData (by rw [← hpre, List.length_append]) (hpre ▸ hvalue) left
    rw [← hp] at hparse
    rw [Yields, hmove hbegin, List.append_assoc]
    exact feedChunks_some ⟨{ p with state := .bulkData kind body.length pre.flatten }, []⟩ _
      hparse behind

/-- An empty body whose CR came with the length line needs its LF at once. -/
theorem feedChunks_emptyBody_cr {kind : BulkKind} {rest : Bytes} {value : RespValue}
    (hvalue : kind.value [] = some value) {behind : List Bytes}
    (heq : behind.flatten = 10 :: rest) :
    (Chunks.take 2 ([13] :: behind) = [[13], [10]] ∧
      Yields p value (Chunks.drop 2 ([13] :: behind))
        (feedChunks ⟨{ p with state := .bulkData kind 0 [] }, [13]⟩ behind)) ∨
    ((Torn (Chunks.take 2 ([13] :: behind)) ∧ Chunks.take 2 ([13] :: behind) ≠ [[13], [10]]) ∧
      (feedChunks ⟨{ p with state := .bulkData kind 0 [] }, [13]⟩ behind).1 = []) := by
  cases behind with
  | nil => simp at heq
  | cons next behind =>
      cases next with
      | cons b next =>
          obtain ⟨rfl, -⟩ : b = 10 ∧ _ := by simpa using heq
          refine Or.inl ⟨by simp [Chunks.take], ?_⟩
          have hparse : parse ⟨{ p with state := .bulkData kind 0 [] },
              [] ++ (crlf ++ next)⟩ = _ :=
            parse_bulkData (by simp) hvalue next
          rw [← hp] at hparse
          rw [Yields, show Chunks.drop 2 ([13] :: (10 :: next) :: behind) = next :: behind by
            simp [Chunks.drop]]
          exact feedChunks_some ⟨{ p with state := .bulkData kind 0 [] }, [13]⟩ _ hparse behind
      | nil =>
          -- the empty chunk makes the body take over the CR
          have hflat : behind.flatten = [10] ++ rest := by simpa using heq
          refine Or.inr ⟨?_, ?_⟩
          · obtain ⟨pre, last, -, -, -, hcover, hlast, htake, -⟩ :=
              Chunks.cover (by simp) hflat
            have hend : last = [10] := by
              rcases List.append_eq_cons_iff.mp hcover with ⟨-, h⟩ | ⟨tail, -, h⟩
              · exact h
              · exact absurd (List.append_eq_nil_iff.mp h.symm).2 hlast
            have hpieces : Chunks.take 2 ([13] :: [] :: behind) =
                [13] :: [] :: (pre ++ [last]) := by
              rw [← htake]
              simp [Chunks.take]
            rw [hpieces, hend]
            refine ⟨?_, by simp⟩
            rw [Torn, ← List.cons_append, ← List.cons_append, List.getLast?_concat]
          · have hparse : parse ⟨{ p with state := .bulkData kind 0 [] }, [13] ++ []⟩ = _ :=
              parse_bulkData_more rfl (by simp)
            rw [feedChunks_none ⟨{ p with state := .bulkData kind 0 [] }, [13]⟩ [] hparse]
            exact feedChunks_stranded rfl rfl (by simp [hflat])

/-- An empty body keeps what there is of its CRLF in the buffer: one byte stays
there and is used with the next chunk, if that is not empty. -/
theorem feedChunks_emptyBody {kind : BulkKind} (hkind : kind ≠ .verbatimString)
    {rest data more : Bytes} {value : RespValue} (hvalue : kind.value [] = some value)
    {len : Int64} (hcount : parseI64 (data ++ more) = some len) (hneg : ¬ len < 0)
    (hzero : len.toNatClampNeg = 0) (hmore : CrlfFree more) {left : Bytes}
    {behind : List Bytes} (heq : (left :: behind).flatten = crlf ++ rest) :
    ((¬ Torn (Chunks.take 2 (left :: behind)) ∨ Chunks.take 2 (left :: behind) = [[13], [10]]) ∧
      Yields p value (Chunks.drop 2 (left :: behind))
        (feedChunks ⟨{ p with state := .bulkLen kind data }, []⟩
          ((more ++ (crlf ++ left)) :: behind))) ∨
    ((Torn (Chunks.take 2 (left :: behind)) ∧ Chunks.take 2 (left :: behind) ≠ [[13], [10]]) ∧
      (feedChunks ⟨{ p with state := .bulkLen kind data }, []⟩
        ((more ++ (crlf ++ left)) :: behind)).1 = []) := by
  have hshort : left.length < 2 →
      parse ⟨{ p with state := .bulkLen kind data }, more ++ (crlf ++ left)⟩ = _ :=
    parse_emptyBulk_short hmore hcount hneg hzero hkind
  match left with
  | [] =>
      have hnone : parse ⟨{ p with state := .bulkData kind 0 [] }, []⟩ = _ :=
        parse_bulkData_more rfl (by simp)
      have hopen : feedChunks ⟨{ p with state := .bulkLen kind data }, []⟩
          ((more ++ (crlf ++ [])) :: behind) =
          feedChunks ⟨{ p with state := .bulkData kind 0 [] }, []⟩ ([] :: behind) :=
        feedChunks_congr ((hshort (by simp)).trans hnone.symm) behind
      rw [hopen]
      rcases feedChunks_body hp hvalue heq with ⟨htorn, hfeed⟩ | ⟨htorn, hfeed⟩
      · exact Or.inr ⟨⟨htorn, by simp [Chunks.take]⟩, hfeed⟩
      · exact Or.inl ⟨Or.inl htorn, hfeed⟩
  | [b] =>
      obtain ⟨rfl, hbehind⟩ : b = 13 ∧ behind.flatten = 10 :: rest := by
        simpa [crlf] using heq
      rw [feedChunks_none ⟨{ p with state := .bulkLen kind data }, []⟩
        (more ++ (crlf ++ [13])) (hshort (by simp))]
      rcases feedChunks_emptyBody_cr hp hvalue hbehind with ⟨htake, hfeed⟩ | ⟨htake, hfeed⟩
      · exact Or.inl ⟨Or.inr htake, hfeed⟩
      · exact Or.inr ⟨htake, hfeed⟩
  | a :: b :: left =>
      obtain ⟨rfl, rfl, -⟩ : a = 13 ∧ b = 10 ∧ _ := by
        simpa [crlf] using heq
      refine Or.inl ⟨Or.inl (by simp [Chunks.take, Torn]), ?_⟩
      have hparse : parse ⟨{ p with state := .bulkLen kind data },
          more ++ (crlf ++ (crlf ++ left))⟩ = _ :=
        parse_emptyBulk hmore hcount hneg hzero hkind hvalue left
      rw [← hp] at hparse
      rw [Yields, show Chunks.drop 2 ((13 :: 10 :: left) :: behind) = left :: behind by
        simp [Chunks.drop]]
      exact feedChunks_some ⟨{ p with state := .bulkLen kind data }, []⟩ _ hparse behind

theorem feedChunks_bulk_frame {kind : BulkKind} {count body rest : Bytes} {value : RespValue}
    (hmeans : (Scalar.bulk kind count body).Means p value) {chunks : List Bytes}
    (heq : chunks.flatten = (Scalar.bulk kind count body).bytes ++ rest) :
    ((Scalar.bulk kind count body).Survives chunks ∧
      Yields p value (Chunks.drop (Scalar.bulk kind count body).bytes.length chunks)
        (feedChunks ⟨p, []⟩ chunks)) ∨
    (¬ (Scalar.bulk kind count body).Survives chunks ∧
      (feedChunks ⟨p, []⟩ chunks).1.head? ≠ some value) := by
  obtain ⟨⟨len, hcount, hneg, hbody⟩, hmax, hvalue⟩ := hmeans
  have hline : CrlfFree count := crlfFree_of_cr_not_mem (cr_not_mem_of_parseI64 hcount)
  have hlength : (Scalar.bulk kind count body).bytes.length =
      count.length + 3 + (body.length + 2) := by
    simp [Scalar.bytes, crlf]
    omega
  rw [Scalar.bytes, List.append_assoc] at heq
  rw [hlength, Chunks.drop_add]
  simp only [Scalar.Survives]
  rcases feedChunks_arrives hp kind.markerState_marker (.bulkLen kind) hline heq with
    ⟨htorn, behind, hfeed⟩ | ⟨htorn, data, more, left, behind, rfl, hdrop, hrest, hfeed⟩
  · rw [hfeed, feedChunks_stuck (.bulkLen kind) ⟨_, rfl, by simp⟩]
    exact Or.inr ⟨fun h => h.1 htorn, by simp⟩
  · rw [hfeed, hdrop]
    simp only [htorn, not_false_eq_true, true_and]
    by_cases hmin : kind.minLen ≤ len.toNatClampNeg
    · have hne : body ≠ [] := by
        rintro rfl
        rw [← hbody] at hmin
        cases kind <;> simp [BulkKind.minLen] at hmin
      have hopen : feedChunks ⟨{ p with state := .bulkLen kind data }, []⟩
          ((more ++ (crlf ++ left)) :: behind) =
          feedChunks ⟨{ p with state := .bulkData kind body.length [] }, []⟩
            (left :: behind) := by
        rw [hbody]
        exact feedChunks_congr
          (parse_bulkLen hline.of_append_right hcount hneg hmin (hbody ▸ hmax) left) behind
      rw [hopen]
      rcases feedChunks_body hp hvalue hrest with ⟨htorn', hfeed'⟩ | ⟨htorn', hfeed'⟩
      · exact Or.inr ⟨by simp [htorn', hne], by simp [hfeed']⟩
      · exact Or.inl ⟨Or.inl htorn', hfeed'⟩
    · -- only a body without bytes is shorter than the kind's minimum
      obtain ⟨hkind, hzero⟩ := BulkKind.of_lt_minLen hvalue (hbody ▸ hmin)
      obtain rfl := List.eq_nil_of_length_eq_zero hzero
      rcases feedChunks_emptyBody hp hkind hvalue hcount hneg hbody.symm
        hline.of_append_right hrest with ⟨hsafe, hfeed'⟩ | ⟨htorn', hfeed'⟩
      · refine Or.inl ⟨?_, hfeed'⟩
        simpa using hsafe
      · refine Or.inr ⟨?_, by simp [hfeed']⟩
        simpa using htorn'

/-- A byte that is no type marker ends the stream. -/
theorem feedChunks_bad_byte {b : UInt8}
    (hbad : ∀ buf, ∃ e c, parse ⟨p, b :: buf⟩ = (.err e, c)) {buf rest : Bytes}
    {chunks : List Bytes} (heq : buf ++ chunks.flatten = b :: rest) :
    (feedChunks ⟨p, buf⟩ chunks).1 = [] := by
  induction chunks generalizing buf with
  | nil => rfl
  | cons chunk chunks ih =>
      rw [List.flatten_cons, ← List.append_assoc] at heq
      cases hbuf : buf ++ chunk with
      | nil =>
          rw [feedChunks_none ⟨p, buf⟩ chunk (hbuf ▸ parse_waiting_nil hp)]
          exact ih (by simpa [hbuf] using heq)
      | cons c more =>
          rw [hbuf, List.cons_append] at heq
          obtain ⟨rfl, -⟩ := List.cons.inj heq
          obtain ⟨e, c', hparse⟩ := hbad more
          rw [feedChunks_err ⟨p, buf⟩ chunk (hbuf ▸ hparse)]

/-- The type byte of a frame that arrives in pieces is consumed with the first of
them, and what is left begins with a byte the parser refuses. -/
theorem feedChunks_lost_marker {m b : UInt8} {w : Bytes}
    (hshort : ∀ more : Bytes, more.length < w.length + 1 →
      parse ⟨p, m :: more⟩ = (.ok none, ⟨p, more⟩))
    (hbad : ∀ buf, ∃ e c, parse ⟨p, b :: buf⟩ = (.err e, c)) {pre : List Bytes} {last : Bytes}
    (hlast : last ≠ []) (hpre : pre.flatten ≠ []) (hcover : pre.flatten ++ last = m :: b :: w)
    (left : Bytes) (behind : List Bytes) :
    (feedChunks ⟨p, []⟩ (pre ++ (last ++ left) :: behind)).1 = [] := by
  induction pre with
  | nil => exact absurd rfl hpre
  | cons chunk pre ih =>
      rw [List.cons_append]
      cases chunk with
      | nil =>
          rw [feedChunks_none ⟨p, []⟩ [] (parse_waiting_nil hp)]
          exact ih (by simpa using hpre) (by simpa using hcover)
      | cons c more =>
          simp only [List.flatten_cons, List.cons_append, List.cons.injEq] at hcover
          obtain ⟨rfl, hcover⟩ := hcover
          have hlength := congrArg List.length hcover
          have := List.length_pos_iff.mpr hlast
          simp only [List.length_append, List.length_cons] at hlength
          rw [feedChunks_none ⟨p, []⟩ (c :: more) (hshort more (by omega))]
          have hrest : more ++ (pre ++ (last ++ left) :: behind).flatten =
              b :: (w ++ (left ++ behind.flatten)) := by
            rw [← List.cons_append, ← hcover]
            simp
          exact feedChunks_bad_byte hp hbad hrest

/-- Frames without a state of their own survive only whole: a cut costs the type
byte, and the rest does not begin a frame. -/
theorem feedChunks_instant {m b : UInt8} {w rest : Bytes} {value : RespValue}
    (hwhole : ∀ left, parse ⟨p, m :: b :: w ++ left⟩ = (.ok (some value), ⟨p, left⟩))
    (hshort : ∀ more : Bytes, more.length < w.length + 1 →
      parse ⟨p, m :: more⟩ = (.ok none, ⟨p, more⟩))
    (hbad : ∀ buf, ∃ e c, parse ⟨p, b :: buf⟩ = (.err e, c)) {chunks : List Bytes}
    (heq : chunks.flatten = (m :: b :: w) ++ rest) :
    ((Chunks.take (w.length + 2) chunks).getLast? = some (m :: b :: w) ∧
      Yields p value (Chunks.drop (w.length + 2) chunks) (feedChunks ⟨p, []⟩ chunks)) ∨
    ((Chunks.take (w.length + 2) chunks).getLast? ≠ some (m :: b :: w) ∧
      (feedChunks ⟨p, []⟩ chunks).1.head? ≠ some value) := by
  obtain ⟨pre, last, left, behind, rfl, hcover, hlast, htake, hdrop, -⟩ :=
    Chunks.cover (by simp) heq
  rw [show (m :: b :: w).length = w.length + 2 from rfl] at htake hdrop
  rw [htake, hdrop, List.getLast?_concat]
  by_cases hpre : pre.flatten = []
  · rw [hpre, List.nil_append] at hcover
    subst hcover
    refine Or.inl ⟨rfl, ?_⟩
    have hempty : [] ++ pre.flatten <+: [] := by
      rw [hpre]
      exact List.prefix_rfl
    have hmove := feedChunks_accumulate (fun _ => p) (by
      intro start chunk hchunk
      obtain ⟨-, rfl⟩ := List.append_eq_nil_iff.mp (List.prefix_nil.mp hchunk)
      exact parse_waiting_nil hp) [] hempty ((m :: b :: w ++ left) :: behind)
    rw [Yields, hmove]
    exact feedChunks_some ⟨p, []⟩ (m :: b :: w ++ left) (hwhole left) behind
  · refine Or.inr ⟨?_, ?_⟩
    · intro h
      have hlength := congrArg List.length hcover
      rw [Option.some.inj h, List.length_append] at hlength
      have := List.length_pos_iff.mpr hpre
      omega
    · rw [feedChunks_lost_marker hp hshort hbad hlast hpre hcover left behind]
      exact (Option.some_ne_none value).symm

theorem parse_no_marker {b : UInt8}
    (hb : ∀ p buf, typeStep b p buf = answer (.err (.invalidTypeMarker b)) p buf)
    (buf : Bytes) : ∃ e c, parse ⟨p, b :: buf⟩ = (.err e, c) := by
  refine ⟨.invalidTypeMarker b, ⟨p, buf⟩, parse_of_answer ?_⟩
  simp only [parseStep, hp, waitingStep]
  exact hb p buf

/-- A null whose CRLF is not there yet leaves the parser in place, without its
type byte. -/
theorem parse_null_short {more : Bytes} (hmore : more.length < 2) :
    parse ⟨p, 95 :: more⟩ = (.ok none, ⟨p, more⟩) := by
  apply parse_of_answer
  simp only [parseStep, hp, waitingStep]
  rcases more with _ | ⟨a, _ | ⟨b, more⟩⟩
  · rfl
  · rfl
  · simp only [List.length_cons] at hmore
    omega

theorem parse_boolean_short {more : Bytes} (hmore : more.length < 3) :
    parse ⟨p, 35 :: more⟩ = (.ok none, ⟨p, more⟩) := by
  apply parse_of_answer
  simp only [parseStep, hp, waitingStep]
  rcases more with _ | ⟨val, _ | ⟨a, _ | ⟨b, more⟩⟩⟩
  · rfl
  · rfl
  · rfl
  · simp only [List.length_cons] at hmore
    omega

/-- A frame that survives its cuts yields its value and the stream goes on behind
it; otherwise its value does not come next. -/
theorem feedChunks_frame {frame : Scalar} {value : RespValue} (hmeans : frame.Means p value)
    {rest : Bytes} {chunks : List Bytes} (heq : chunks.flatten = frame.bytes ++ rest) :
    (frame.Survives chunks ∧
      Yields p value (Chunks.drop frame.bytes.length chunks) (feedChunks ⟨p, []⟩ chunks)) ∨
    (¬ frame.Survives chunks ∧ (feedChunks ⟨p, []⟩ chunks).1.head? ≠ some value) := by
  cases frame with
  | line kind payload =>
      have hlength : (Scalar.line kind payload).bytes.length = payload.length + 3 := by
        simp [Scalar.bytes, crlf]
      rw [hlength]
      rcases feedChunks_line_frame hp hmeans.1 hmeans.2 heq with h | h
      · exact Or.inr ⟨fun hsafe => hsafe h.1, h.2⟩
      · exact Or.inl h
  | bulk kind count body => exact feedChunks_bulk_frame hp hmeans heq
  | nullBulk kind count =>
      obtain ⟨hcount, rfl⟩ := hmeans
      have hlength : (Scalar.nullBulk kind count).bytes.length = count.length + 3 := by
        simp [Scalar.bytes, crlf]
      rw [hlength]
      rcases feedChunks_nullBulk_frame hp hcount heq with h | h
      · exact Or.inr ⟨fun hsafe => hsafe h.1, h.2⟩
      · exact Or.inl h
  | null =>
      obtain rfl : value = .null := hmeans
      exact feedChunks_instant hp (reads_null.parse_append hp)
        (fun more hmore => parse_null_short hp hmore) (parse_no_marker hp fun _ _ => rfl) heq
  | boolean b =>
      obtain rfl : value = .boolean b := hmeans
      cases b with
      | true =>
          exact feedChunks_instant (w := crlf) hp ((reads_boolean true).parse_append hp)
            (fun more hmore => parse_boolean_short hp hmore)
            (parse_no_marker hp fun _ _ => rfl) heq
      | false =>
          exact feedChunks_instant (w := crlf) hp ((reads_boolean false).parse_append hp)
            (fun more hmore => parse_boolean_short hp hmore)
            (parse_no_marker hp fun _ _ => rfl) heq

theorem feedChunks_empty {chunks : List Bytes} (heq : chunks.flatten = []) :
    feedChunks ⟨p, []⟩ chunks = ([], .ok none) := by
  induction chunks with
  | nil => rfl
  | cons chunk chunks ih =>
      obtain ⟨rfl, hrest⟩ := List.append_eq_nil_iff.mp heq
      rw [feedChunks_none ⟨p, []⟩ [] (parse_waiting_nil hp)]
      exact ih hrest

/-- All values arrive, and no error, exactly when every frame survives. -/
theorem feedChunks_eq_values_iff {frames : List (Scalar × RespValue)}
    (hframes : ∀ frame ∈ frames, frame.1.Means p frame.2) {chunks : List Bytes}
    (heq : chunks.flatten = frames.flatMap fun frame => frame.1.bytes) :
    feedChunks ⟨p, []⟩ chunks = (frames.map Prod.snd, .ok none) ↔
      SurvivesAll (frames.map Prod.fst) chunks := by
  induction frames generalizing chunks with
  | nil => simp [feedChunks_empty hp heq, SurvivesAll]
  | cons frame frames ih =>
      rw [List.flatMap_cons] at heq
      simp only [List.map_cons, SurvivesAll]
      rcases feedChunks_frame hp (hframes frame List.mem_cons_self) heq with
        ⟨hsafe, hyields⟩ | ⟨hlost, hhead⟩
      · have hrest : (Chunks.drop frame.1.bytes.length chunks).flatten =
            frames.flatMap fun frame => frame.1.bytes := by
          have hne : frame.1.bytes ≠ [] := by
            cases frame.1 with
            | boolean b => cases b <;> simp [Scalar.bytes]
            | _ => simp [Scalar.bytes]
          obtain ⟨-, -, left, behind, -, -, -, -, hdrop, hflat⟩ := Chunks.cover hne heq
          rw [hdrop, hflat]
        have hih := ih (fun frame hframe => hframes frame (List.mem_cons_of_mem _ hframe)) hrest
        rw [hyields, and_iff_right hsafe, ← hih, Prod.mk.injEq, List.cons.injEq, Prod.ext_iff]
        simp
      · refine iff_of_false ?_ (fun h => hlost h.1)
        intro h
        exact hhead (by rw [h]; rfl)

omit hp in
/-- A stream in one chunk has no cuts to survive. -/
theorem survivesAll_whole {frames : List (Scalar × RespValue)}
    (hframes : ∀ frame ∈ frames, frame.1.Means p frame.2) {whole : Bytes}
    (heq : whole = frames.flatMap fun frame => frame.1.bytes) :
    SurvivesAll (frames.map Prod.fst) [whole] := by
  have hpiece : ∀ {n : Nat} {chunk : Bytes}, 2 ≤ n → n ≤ chunk.length →
      ¬ Torn (Chunks.take n [chunk]) := by
    intro n chunk hn hle htorn
    simp only [Chunks.take, hle, ↓reduceIte, Torn, List.getLast?_singleton,
      Option.some.injEq] at htorn
    have := congrArg List.length htorn
    simp only [List.length_take, List.length_singleton] at this
    omega
  induction frames generalizing whole with
  | nil => trivial
  | cons frame frames ih =>
      obtain ⟨frame, value⟩ := frame
      rw [List.flatMap_cons] at heq
      set rest := frames.flatMap fun frame => frame.1.bytes with hrest
      have hdrop : Chunks.drop frame.bytes.length [whole] = [rest] := by
        simp [Chunks.drop, heq]
      refine ⟨?_, hdrop ▸ ih (fun f hf => hframes f (List.mem_cons_of_mem _ hf)) rfl⟩
      have hlength := congrArg List.length heq
      cases frame with
      | line kind payload =>
          refine hpiece (by omega) ?_
          simp [Scalar.bytes, crlf] at hlength
          omega
      | nullBulk kind count =>
          refine hpiece (by omega) ?_
          simp [Scalar.bytes, crlf] at hlength
          omega
      | bulk kind count body =>
          simp only [Scalar.bytes, crlf, List.length_append, List.length_cons,
            List.length_nil] at hlength
          refine ⟨hpiece (by omega) (by omega), Or.inl ?_⟩
          rw [Chunks.drop, if_pos (by omega)]
          exact hpiece (by omega) (by rw [List.length_drop]; omega)
      | null => simp [Scalar.Survives, Scalar.bytes, Chunks.take, heq, crlf]
      | boolean b => cases b <;> simp [Scalar.Survives, Scalar.bytes, Chunks.take, heq, crlf]

end

section

variable [F64Text]

/-- Chunk by chunk the same values come out as in one piece, and no error,
exactly when every frame survives the cuts that fall into it. -/
theorem feedChunks_eq_oneShot_iff (bulkSize arrayLen depth : Nat)
    (frames : List (Scalar × RespValue))
    (hframes : ∀ frame ∈ frames, frame.1.Means (.fresh bulkSize arrayLen depth) frame.2)
    (chunks : List Bytes) (heq : chunks.flatten = frames.flatMap fun frame => frame.1.bytes) :
    ((feedChunks ⟨.fresh bulkSize arrayLen depth, []⟩ chunks).1 =
        (feedChunks ⟨.fresh bulkSize arrayLen depth, []⟩ [chunks.flatten]).1 ∧
      (feedChunks ⟨.fresh bulkSize arrayLen depth, []⟩ chunks).2 = .ok none) ↔
      SurvivesAll (frames.map Prod.fst) chunks := by
  have hp : (RespParser.fresh bulkSize arrayLen depth).state = .waitingForType := rfl
  have hwhole : feedChunks ⟨.fresh bulkSize arrayLen depth, []⟩ [chunks.flatten] =
      (frames.map Prod.snd, .ok none) :=
    (feedChunks_eq_values_iff hp hframes (by simpa using heq)).mpr
      (survivesAll_whole hframes heq)
  rw [hwhole, ← feedChunks_eq_values_iff hp hframes heq, Prod.ext_iff]

end

namespace Witness

/-- A text, an empty body and a boolean, in five chunks: the text is cut in its
payload, the empty body between its CR and LF. -/
theorem feedChunks_survives_cuts :
    (feedChunks ⟨.fresh 8 8 8, []⟩ [ascii "+O", ascii "K\r\n$0", ascii "\r\n\r", ascii "\n",
        ascii "#t\r\n"]).1 =
      (feedChunks ⟨.fresh 8 8 8, []⟩ [ascii "+OK\r\n$0\r\n\r\n#t\r\n"]).1 := by
  refine ((feedChunks_eq_oneShot_iff 8 8 8
    [(.line .simpleString (ascii "OK"), .simpleString (ascii "OK")),
      (.bulk .bulkString (ascii "0") [], .bulkString (some [])),
      (.boolean true, .boolean true)] ?_ [ascii "+O", ascii "K\r\n$0", ascii "\r\n\r",
      ascii "\n", ascii "#t\r\n"] rfl).mpr ?_).1
  · simp only [List.forall_mem_cons, List.not_mem_nil, false_implies, implies_true, and_true]
    exact ⟨⟨by decide, rfl⟩, ⟨⟨0, by decide, by decide, by decide⟩, by decide, rfl⟩, rfl⟩
  · decide

/-- Cut between CR and LF, a text is never returned. -/
theorem feedChunks_loses_torn_text :
    ¬ ((feedChunks ⟨RespParser.new, []⟩ [ascii "+OK\r", ascii "\n"]).1 =
        (feedChunks ⟨RespParser.new, []⟩ [ascii "+OK\r\n"]).1 ∧
      (feedChunks ⟨RespParser.new, []⟩ [ascii "+OK\r", ascii "\n"]).2 = .ok none) := by
  rintro ⟨h, -⟩
  exact absurd (congrArg List.length h) (by decide)

end Witness

end Seshat
