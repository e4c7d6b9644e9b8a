/-
Aggregates in pieces.  Between two calls an aggregate is remembered by its open
frame alone, so a stream may be cut in the length line and between elements; an
element that is cut is forgotten with the bytes already read of it.
-/
import Seshat.Resp.Partial
import Seshat.Resp.RoundTrip

namespace Seshat

open Decimal RespValue

/-- A value the parser's limits admit and the encoder writes unambiguously. -/
structure Admits [F64Text] (p : RespParser) (value : RespValue) : Prop where
  fits : value.Everywhere (FitsLimits p)
  writable : value.Everywhere Writable
  nesting_le : value.nesting ≤ p.maxDepth

/-- A parser between frames, outside every aggregate. -/
structure RespParser.Idle (p : RespParser) : Prop where
  state_eq : p.state = .waitingForType
  depth_eq : p.currentDepth = 0

/-- The parser inside an aggregate whose frame is open. -/
def RespParser.opened (p : RespParser) (frame : Frame) : RespParser :=
  { p with currentDepth := p.currentDepth + 1, state := frame.state }

/-- A part of the encoding that ends in the length line, but not between its CR
and LF, or at the start or end of a top-level element. -/
def AtBoundary [F64Text] (value : RespValue) (left : Bytes) : Prop :=
  (∃ tail, value.header = left ++ tail ∧ tail ≠ [10]) ∨
    ∃ done later, value.items = done ++ later ∧ left = value.header ++ encodeAll done

/-- What a parser remembers after a part of the encoding of a value. -/
inductive Progress [F64Text] (p : RespParser) (value : RespValue) :
    Bytes → RespParser → Prop where
  | header {left tail : Bytes} (hheader : value.header = left ++ tail)
      (hcut : tail ≠ [] ∧ tail ≠ [10]) : Progress p value left (p.inLine value.lenState left)
  | items {done later : List RespValue} (hitems : value.items = done ++ later)
      {frame : Frame} (hcloses : frame.ClosesAll later value) :
      Progress p value (value.header ++ encodeAll done) (p.opened frame)

/-- Before its LF, a cut in the length line is at the start or in the count. -/
theorem header_cut {value : RespValue} {left tail : Bytes}
    (hheader : value.header = left ++ tail) (htail : tail ≠ []) :
    left = [] ∨ ∃ lenBytes rest, left = value.marker :: lenBytes ∧
      value.countText ++ [13] = lenBytes ++ rest ∧ tail = rest ++ [10] := by
  cases left with
  | nil => exact Or.inl rfl
  | cons b lenBytes =>
      refine Or.inr ?_
      simp only [header, List.cons_append, List.cons.injEq] at hheader
      obtain ⟨rfl, hheader⟩ := hheader
      obtain ⟨rest, last, rfl⟩ := (List.eq_nil_or_concat' tail).resolve_left htail
      have hsplit : value.countText ++ [13] ++ [10] = lenBytes ++ rest ++ [last] := by
        simpa [crlf] using hheader
      obtain ⟨hinit, hlast⟩ := List.append_inj' hsplit rfl
      cases hlast
      exact ⟨lenBytes, rest, rfl, hinit, rfl⟩

section

variable [F64Text] {p : RespParser} {value : RespValue}

theorem parse_idle (hidle : p.Idle) : parse ⟨p, []⟩ = (.ok none, ⟨p, []⟩) :=
  parse_waiting_nil hidle.state_eq

/-- In the length line, as long as its LF is not reached, every call waits. -/
theorem parse_inHeader (hidle : p.Idle) (hwrite : Writable value) (left chunk : Bytes)
    {tail : Bytes} (hheader : value.header = left ++ chunk ++ tail) (htail : tail ≠ []) :
    parse ⟨p.inLine value.lenState left, chunk⟩ =
      (.ok none, ⟨p.inLine value.lenState (left ++ chunk), []⟩) := by
  refine parse_inLine hidle.state_eq (markerState_marker value)
    (readsCount_lenState value).readsLine
    (crlfFree_of_cr_not_mem (cr_not_mem_countText hwrite)) left chunk ?_
  rcases header_cut hheader htail with hnil | ⟨lenBytes, rest, hleft, hsplit, -⟩
  · rw [hnil]
    exact List.nil_prefix
  · exact ⟨rest, by rw [hleft, List.cons_append, ← hsplit]⟩

/-- The rest of the length line opens the frame. -/
theorem parse_header_rest (hidle : p.Idle) (hadmits : Admits p value)
    (hitems : value.items ≠ []) {left tail : Bytes} (hheader : value.header = left ++ tail)
    (hcut : tail ≠ [] ∧ tail ≠ [10]) (rest : Bytes) :
    parse ⟨p.inLine value.lenState left, tail ++ rest⟩ = parse ⟨p.opened value.opening, rest⟩ := by
  have hdepth : p.currentDepth + 1 ≤ p.maxDepth := by
    have := nesting_pos hitems
    have := hadmits.nesting_le
    have := hidle.depth_eq
    omega
  have hopen : ∀ {lenBytes line : Bytes}, lenBytes ++ line = value.countText →
      parse ⟨{ p with state := value.lenState lenBytes }, line ++ (crlf ++ rest)⟩ =
        parse ⟨p.opened value.opening, rest⟩ := by
    intro lenBytes line hcount
    exact parse_count hitems hadmits.writable.self hadmits.fits.self hdepth hcount rest
  rcases header_cut hheader hcut.1 with rfl | ⟨lenBytes, line, rfl, hsplit, rfl⟩
  · rw [List.nil_append] at hheader
    rw [← hheader]
    have hmarker := parse_marker (p := p) (markerState_marker value)
      (value.countText ++ (crlf ++ rest))
    rw [← hidle.state_eq] at hmarker
    simp only [header, List.cons_append, List.append_assoc]
    exact hmarker.trans (hopen rfl)
  · -- the cut is not between CR and LF, so the CR is still to come
    rcases List.eq_nil_or_concat' line with rfl | ⟨line, last, rfl⟩
    · exact absurd rfl hcut.2
    · rw [← List.append_assoc] at hsplit
      obtain ⟨hcount, hlast⟩ := List.append_inj' hsplit rfl
      cases hlast
      have h := hopen hcount.symm
      simpa [RespParser.inLine, crlf] using h

theorem reads_items (hadmits : Admits p value) (hidle : p.Idle) :
    ∀ item ∈ value.items,
      Reads { p with currentDepth := p.currentDepth + 1 } (encode item) item := by
  intro item hitem
  have hlt := nesting_item_lt hitem
  have := hadmits.nesting_le
  have := hidle.depth_eq
  exact reads_encode item _ (hadmits.fits.item hitem) (hadmits.writable.item hitem)
    (by dsimp only; omega)

/-- From any point of progress the rest of the encoding completes the value. -/
theorem Progress.complete {q : RespParser} {left tail : Bytes}
    (hprogress : Progress p value left q) (hidle : p.Idle) (hadmits : Admits p value)
    (hagg : value.isAggregate = true) (heq : encode value = left ++ tail) (rest : Bytes) :
    parse ⟨q, tail ++ rest⟩ = (.ok (some value), ⟨p, rest⟩) := by
  have hdepth : 0 < p.currentDepth + 1 := Nat.succ_pos _
  have hself : { p with state := .waitingForType } = p := by
    rw [← hidle.state_eq]
  have hclose : ∀ {frame : Frame} {items : List RespValue}, frame.ClosesAll items value →
      (∀ item ∈ items, item ∈ value.items) →
      parse ⟨p.opened frame, encodeAll items ++ rest⟩ = (.ok (some value), ⟨p, rest⟩) := by
    intro frame items hcloses hsub
    have h := parse_frame_closesAll (p := { p with currentDepth := p.currentDepth + 1 })
      hcloses (fun item hitem => reads_items hadmits hidle item (hsub item hitem)) hdepth rest
    simp only [Nat.add_sub_cancel, hself] at h
    exact h
  rw [encode_eq_header_append hagg] at heq
  cases hprogress with
  | header hheader hcut =>
      rename_i tail'
      rw [hheader, List.append_assoc, List.append_cancel_left_eq] at heq
      subst heq
      by_cases hempty : value.items = []
      · -- without items the length line is the whole encoding
        have hreads := reads_encode value p hadmits.fits hadmits.writable
          (by have := hadmits.nesting_le; have := hidle.depth_eq; omega) rest
        rw [hempty, encodeAll, List.append_nil]
        rcases header_cut hheader hcut.1 with rfl | ⟨lenBytes, line, rfl, hsplit, rfl⟩
        · rw [encode_eq_header_append hagg, hempty, encodeAll, List.append_nil, hheader,
            hself] at hreads
          exact hreads
        · rcases List.eq_nil_or_concat' line with rfl | ⟨line, last, rfl⟩
          · exact absurd rfl hcut.2
          · rw [← List.append_assoc] at hsplit
            obtain ⟨hcount, hlast⟩ := List.append_inj' hsplit rfl
            cases hlast
            have h := parse_count_empty (p := p) hagg hempty hcount.symm rest
            rw [hself] at h
            simpa [RespParser.inLine, crlf] using h
      · rw [List.append_assoc, parse_header_rest hidle hadmits hempty hheader hcut]
        exact hclose (opening_closesAll hempty) fun item hitem => hitem
  | items hitems hcloses =>
      rw [hitems, encodeAll_append, List.append_assoc, List.append_cancel_left_eq,
        List.append_cancel_left_eq] at heq
      rw [← heq]
      exact hclose hcloses fun item hitem => hitems ▸ List.mem_append_right _ hitem

theorem encodeAll_eq_nil_iff {items : List RespValue} : encodeAll items = [] ↔ items = [] := by
  cases items with
  | nil => simp [encodeAll]
  | cons item items => simp [encodeAll, encode_ne_nil]

/-- The items read so far and a chunk that ends at an element boundary behind
them: the chunk is the encoding of the items in between. -/
theorem items_between {items done later done' later' : List RespValue} {chunk : Bytes}
    (hitems : items = done ++ later) (hitems' : items = done' ++ later')
    (hchunk : encodeAll done ++ chunk = encodeAll done') :
    ∃ mid, done' = done ++ mid ∧ later = mid ++ later' ∧ chunk = encodeAll mid := by
  rw [hitems] at hitems'
  rcases List.append_eq_append_iff.mp hitems' with ⟨mid, hdone, hlater⟩ | ⟨mid, hdone, hlater⟩
  · refine ⟨mid, hdone, hlater, ?_⟩
    rw [hdone, encodeAll_append, List.append_cancel_left_eq] at hchunk
    exact hchunk
  · rw [hdone, encodeAll_append, List.append_assoc] at hchunk
    have hnil : encodeAll mid ++ chunk = [] := by
      simpa using hchunk
    obtain ⟨hmid, hempty⟩ := List.append_eq_nil_iff.mp hnil
    obtain rfl := encodeAll_eq_nil_iff.mp hmid
    exact ⟨[], by simpa using hdone.symm, by simpa using hlater.symm, hempty⟩

/-- Complete elements are collected; the frame waits for the others. -/
theorem parse_opened_suspend (hidle : p.Idle) (hadmits : Admits p value) {frame : Frame}
    {mid later : List RespValue} (hcloses : frame.ClosesAll (mid ++ later) value)
    (hlater : later ≠ []) (hmid : ∀ item ∈ mid, item ∈ value.items) :
    ∃ frame', parse ⟨p.opened frame, encodeAll mid⟩ = (.ok none, ⟨p.opened frame', []⟩) ∧
      frame'.ClosesAll later value := by
  obtain ⟨frame', hgrows, hcloses'⟩ := hcloses.split hlater
  refine ⟨frame', ?_, hcloses'⟩
  have h := parse_frame_growsAll (p := { p with currentDepth := p.currentDepth + 1 })
    hcloses.remaining_ne_zero hgrows
    (fun item hitem => reads_items hadmits hidle item (hmid item hitem)) []
  rw [List.append_nil] at h
  exact h.trans (parse_frame_nil { p with currentDepth := p.currentDepth + 1 }
    hcloses'.remaining_ne_zero)

theorem Progress.suspend_items {q : RespParser} {left chunk : Bytes}
    (hprogress : Progress p value left q) (hidle : p.Idle) (hadmits : Admits p value)
    {done later : List RespValue} (hitems : value.items = done ++ later)
    (hlater : later ≠ []) (hleft : left ++ chunk = value.header ++ encodeAll done) :
    ∃ q', parse ⟨q, chunk⟩ = (.ok none, ⟨q', []⟩) ∧ Progress p value (left ++ chunk) q' := by
  have hsub : ∀ item ∈ done, item ∈ value.items :=
    fun item hitem => hitems ▸ List.mem_append_left _ hitem
  rw [hleft]
  cases hprogress with
  | header hheader hcut =>
      have hne : value.items ≠ [] := by
        rw [hitems]
        exact List.append_ne_nil_of_right_ne_nil _ hlater
      rw [hheader, List.append_assoc, List.append_cancel_left_eq] at hleft
      have hcloses := opening_closesAll hne
      rw [hitems] at hcloses
      obtain ⟨frame', hparse, hcloses'⟩ :=
        parse_opened_suspend hidle hadmits hcloses hlater hsub
      refine ⟨_, ?_, .items hitems hcloses'⟩
      rw [hleft, parse_header_rest hidle hadmits hne hheader hcut]
      exact hparse
  | items hitems₀ hcloses =>
      rw [List.append_assoc, List.append_cancel_left_eq] at hleft
      obtain ⟨mid, rfl, rfl, rfl⟩ := items_between hitems₀ hitems hleft
      obtain ⟨frame', hparse, hcloses'⟩ := parse_opened_suspend hidle hadmits hcloses hlater
        fun item hitem => hsub item (List.mem_append_right _ hitem)
      exact ⟨_, hparse, .items hitems hcloses'⟩

/-- A chunk that ends at a boundary before the end is consumed and remembered. -/
theorem Progress.suspend {q : RespParser} {left chunk tail : Bytes}
    (hprogress : Progress p value left q) (hidle : p.Idle) (hadmits : Admits p value)
    (hagg : value.isAggregate = true) (heq : encode value = left ++ chunk ++ tail)
    (htail : tail ≠ []) (hcut : AtBoundary value (left ++ chunk)) :
    ∃ q', parse ⟨q, chunk⟩ = (.ok none, ⟨q', []⟩) ∧ Progress p value (left ++ chunk) q' := by
  have hlater : ∀ {done later : List RespValue}, value.items = done ++ later →
      left ++ chunk = value.header ++ encodeAll done → later ≠ [] := by
    rintro done later hitems hleft rfl
    rw [encode_eq_header_append hagg, hitems, List.append_nil, ← hleft] at heq
    exact htail (by simpa using heq)
  rcases hcut with ⟨rest, hheader, hrest⟩ | ⟨done, later, hitems, hleft⟩
  · by_cases hempty : rest = []
    · rw [hempty, List.append_nil] at hheader
      have hleft : left ++ chunk = value.header ++ encodeAll [] := by
        rw [hheader, encodeAll, List.append_nil]
      exact hprogress.suspend_items hidle hadmits rfl (hlater (List.nil_append _).symm hleft) hleft
    · cases hprogress with
      | header hheader₀ hcut =>
          exact ⟨_, parse_inHeader hidle hadmits.writable.self _ _ hheader hempty,
            .header hheader ⟨hempty, hrest⟩⟩
      | items hitems hcloses =>
          -- the chunk would end before the line that is already read
          have hlength := congrArg List.length hheader
          have := List.length_pos_iff.mpr hempty
          simp only [List.length_append] at hlength
          omega
  · exact hprogress.suspend_items hidle hadmits hitems (hlater hitems hleft) hleft

/-- Append a chunk to the buffer and call the parser once. -/
def feed (c : Cursor) (chunk : Bytes) : Outcome × Cursor :=
  parse ⟨c.parser, c.buf ++ chunk⟩

/-- What is left after feeding chunks one by one. -/
def feedAll (c : Cursor) : List Bytes → Cursor
  | [] => c
  | chunk :: chunks => feedAll (feed c chunk).2 chunks

theorem feedAll_append (c : Cursor) (left right : List Bytes) :
    feedAll c (left ++ right) = feedAll (feedAll c left) right := by
  induction left generalizing c with
  | nil => rfl
  | cons chunk left ih => exact ih _

theorem Progress.start (p : RespParser) (value : RespValue) : Progress p value [] p :=
  .header (List.nil_append _).symm ⟨by simp [RespValue.header], by simp [RespValue.header, crlf]⟩

/-- Every chunk is used up without a value. -/
inductive UsesUp : RespParser → List Bytes → RespParser → Prop
  | nil (p : RespParser) : UsesUp p [] p
  | cons {p q r : RespParser} {chunk : Bytes} {chunks : List Bytes} :
      parse ⟨p, chunk⟩ = (.ok none, ⟨q, []⟩) → UsesUp q chunks r → UsesUp p (chunk :: chunks) r

theorem UsesUp.feedAll {q : RespParser} {chunks : List Bytes} (h : UsesUp p chunks q) :
    Seshat.feedAll ⟨p, []⟩ chunks = ⟨q, []⟩ := by
  induction h with
  | nil p => rfl
  | cons hparse _ ih =>
      rw [Seshat.feedAll, show feed ⟨_, []⟩ _ = _ from hparse]
      exact ih

/-- Chunks that end at boundaries before the end of an aggregate move the parser along. -/
theorem Progress.usesUp (hidle : p.Idle) (hadmits : Admits p value)
    (hagg : value.isAggregate = true) {chunks : List Bytes} {q : RespParser}
    {left tail : Bytes} (hprogress : Progress p value left q)
    (heq : encode value = left ++ chunks.flatten ++ tail) (htail : tail ≠ [])
    (hcuts : ∀ pre post, chunks = pre ++ post → AtBoundary value (left ++ pre.flatten)) :
    ∃ q', UsesUp q chunks q' ∧ Progress p value (left ++ chunks.flatten) q' := by
  induction chunks generalizing left q with
  | nil => exact ⟨q, .nil q, by simpa using hprogress⟩
  | cons chunk chunks ih =>
      have hcut : AtBoundary value (left ++ chunk) := by
        simpa using hcuts [chunk] chunks rfl
      have hwhole : encode value = left ++ chunk ++ (chunks.flatten ++ tail) := by
        simpa using heq
      obtain ⟨q₁, hparse, hprogress₁⟩ := hprogress.suspend hidle hadmits hagg hwhole
        (List.append_ne_nil_of_right_ne_nil _ htail) hcut
      obtain ⟨q', huses, hprogress'⟩ := ih hprogress₁ (by simpa using hwhole) (by
        intro pre post hsplit
        have h := hcuts (chunk :: pre) post (by rw [hsplit, List.cons_append])
        simpa using h)
      exact ⟨q', .cons hparse huses, by simpa using hprogress'⟩

/-- Cut between elements or in its length line, an aggregate is resumed: every
chunk but the last is consumed without an answer, and the last one completes the
value and keeps what follows it. -/
theorem feed_resumes_aggregate (p : RespParser) (hidle : p.Idle) (value : RespValue)
    (hadmits : Admits p value) (hitems : value.items ≠ []) (init : List Bytes)
    (last rest : Bytes) (heq : (init ++ [last]).flatten = encode value)
    (hne : ∀ chunk ∈ init ++ [last], chunk ≠ [])
    (hcuts : ∀ pre post, init ++ [last] = pre ++ post → AtBoundary value pre.flatten) :
    (∀ pre chunk post, init = pre ++ chunk :: post →
      (feed (feedAll ⟨p, []⟩ pre) chunk).1 = .ok none ∧
        (feed (feedAll ⟨p, []⟩ pre) chunk).2.buf = []) ∧
      feed (feedAll ⟨p, []⟩ init) (last ++ rest) = (.ok (some value), ⟨p, rest⟩) := by
  have hagg := isAggregate_of_items hitems
  have hlast : last ≠ [] := hne last (by simp)
  have hreach : ∀ pre post, init = pre ++ post →
      ∃ q, feedAll ⟨p, []⟩ pre = ⟨q, []⟩ ∧ Progress p value pre.flatten q := by
    intro pre post hsplit
    have hwhole : encode value = [] ++ pre.flatten ++ (post.flatten ++ last) := by
      rw [← heq, hsplit]
      simp
    obtain ⟨q, huses, hprogress⟩ := (Progress.start p value).usesUp hidle hadmits hagg
      hwhole (List.append_ne_nil_of_right_ne_nil _ hlast) (by
        intro pre' post' hpre
        have h := hcuts pre' (post' ++ post ++ [last]) (by rw [hsplit, hpre]; simp)
        simpa using h)
    exact ⟨q, huses.feedAll, by simpa using hprogress⟩
  constructor
  · intro pre chunk post hsplit
    obtain ⟨q, hfeed, hprogress⟩ := hreach pre (chunk :: post) hsplit
    have hwhole : encode value = pre.flatten ++ chunk ++ (post.flatten ++ last) := by
      rw [← heq, hsplit]
      simp
    have hcut : AtBoundary value (pre.flatten ++ chunk) := by
      have h := hcuts (pre ++ [chunk]) (post ++ [last]) (by rw [hsplit]; simp)
      simpa using h
    obtain ⟨q', hparse, -⟩ := hprogress.suspend hidle hadmits hagg hwhole
      (List.append_ne_nil_of_right_ne_nil _ hlast) hcut
    rw [hfeed, show feed ⟨q, []⟩ chunk = _ from hparse]
    exact ⟨rfl, rfl⟩
  · obtain ⟨q, hfeed, hprogress⟩ := hreach init [] (List.append_nil _).symm
    rw [hfeed]
    refine hprogress.complete hidle hadmits hagg ?_ rest
    rw [← heq]
    simp

theorem feedAll_stuck {c : Cursor} (hstuck : c.parser.Stuck value.lenState) (chunks : List Bytes) :
    (feedAll c chunks).parser.Stuck value.lenState := by
  induction chunks generalizing c with
  | nil => exact hstuck
  | cons chunk chunks ih =>
      exact ih ((readsCount_lenState value).readsLen.parse_of_stuck hstuck _).2

theorem feedAll_inHeader (hidle : p.Idle) (hwrite : Writable value) {chunks : List Bytes}
    (left : Bytes) {tail : Bytes} (hheader : value.header = left ++ chunks.flatten ++ tail)
    (htail : tail ≠ []) :
    feedAll ⟨p.inLine value.lenState left, []⟩ chunks =
      ⟨p.inLine value.lenState (left ++ chunks.flatten), []⟩ := by
  induction chunks generalizing left with
  | nil => simp [feedAll]
  | cons chunk chunks ih =>
      have hwhole : value.header = left ++ chunk ++ (chunks.flatten ++ tail) := by
        simpa using hheader
      have hparse := parse_inHeader hidle hwrite _ _ hwhole
        (List.append_ne_nil_of_right_ne_nil _ htail)
      rw [feedAll, show feed ⟨p.inLine value.lenState left, []⟩ chunk = _ from hparse,
        ih _ (by simpa using hwhole)]
      simp

/-- The chunks keep the elements whole, or separate the CR and LF of the length
line. -/
def CutsCleanly (value : RespValue) (chunks : List Bytes) : Prop :=
  (∃ pre post, chunks = pre ++ post ∧ value.header = pre.flatten ++ [10]) ∨
    ∀ pre post, chunks = pre ++ post → AtBoundary value pre.flatten

/-- The answer to the last of the chunks `fed`: nothing, an error, or the value
once all of its encoding has been fed. -/
def Uncorrupted (value : RespValue) (fed : List Bytes) (outcome : Outcome) : Prop :=
  outcome = .ok none ∨ (∃ e, outcome = .err e) ∨
    (outcome = .ok (some value) ∧ fed.flatten = encode value)

theorem feed_uncorrupted_of_split_header (hidle : p.Idle) (hwrite : Writable value)
    {split rest pre post : List Bytes} {chunk : Bytes}
    (heq : split ++ rest = pre ++ chunk :: post)
    (hheader : value.header = split.flatten ++ [10]) :
    Uncorrupted value (pre ++ [chunk]) (feed (feedAll ⟨p, []⟩ pre) chunk).1 := by
  have hstuck : (feedAll ⟨p, []⟩ split).parser.Stuck value.lenState := by
    have hfeed := feedAll_inHeader hidle hwrite [] hheader (by simp)
    rw [show p.inLine value.lenState [] = p from rfl] at hfeed
    rw [hfeed, List.nil_append]
    rcases header_cut hheader (by simp) with hnil | ⟨lenBytes, tail, hleft, hsplit, htail⟩
    · rw [hnil] at hheader
      simp [RespValue.header, crlf] at hheader
    · obtain rfl : tail = [] := by simpa using htail.symm
      rw [hleft]
      refine ⟨lenBytes, rfl, ?_⟩
      rw [List.append_nil] at hsplit
      simp [← hsplit]
  have hlate : ∀ mid : List Bytes, Uncorrupted value (split ++ mid ++ [chunk])
      (feed (feedAll ⟨p, []⟩ (split ++ mid)) chunk).1 := by
    intro mid
    rw [feedAll_append]
    have hcall := (readsCount_lenState value).readsLen.parse_of_stuck
      (feedAll_stuck hstuck mid) ((feedAll (feedAll ⟨p, []⟩ split) mid).buf ++ chunk)
    rcases hcall.1 with h | h
    · exact Or.inl h
    · exact Or.inr (Or.inl h)
  rcases List.append_eq_append_iff.mp heq with ⟨mid, rfl, -⟩ | ⟨mid, hsplit, hrest⟩
  · exact hlate mid
  · cases mid with
    | nil =>
        rw [List.append_nil] at hsplit
        rw [← hsplit]
        simpa using hlate []
    | cons head mid =>
        -- the chunk still lies in the length line
        obtain ⟨rfl, -⟩ := List.cons.inj hrest
        rw [hsplit] at hheader
        have hwhole : value.header = pre.flatten ++ chunk ++ (mid.flatten ++ [10]) := by
          simpa using hheader
        have hbefore : value.header = [] ++ pre.flatten ++ (chunk ++ (mid.flatten ++ [10])) := by
          simpa using hheader
        have hfeed := feedAll_inHeader hidle hwrite [] hbefore (by simp)
        have hparse := parse_inHeader hidle hwrite _ _ hwhole (by simp)
        rw [show feedAll ⟨p, []⟩ pre = _ from hfeed]
        exact Or.inl (congrArg Prod.fst hparse)

/-- Cuts that keep the elements whole leave the parser idle at the end, also when
empty chunks follow. -/
theorem feedAll_whole (hidle : p.Idle) (hadmits : Admits p value)
    (hagg : value.isAggregate = true) {chunks : List Bytes}
    (heq : chunks.flatten = encode value)
    (hcuts : ∀ pre post, chunks = pre ++ post → AtBoundary value pre.flatten) :
    feedAll ⟨p, []⟩ chunks = ⟨p, []⟩ := by
  induction chunks using List.reverseRecOn with
  | nil => exact absurd heq.symm (encode_ne_nil value)
  | append_singleton init last ih =>
      rw [List.flatten_append, List.flatten_singleton] at heq
      have hcuts' : ∀ pre post, init = pre ++ post → AtBoundary value pre.flatten :=
        fun pre post hsplit => hcuts pre (post ++ [last]) (by rw [hsplit, List.append_assoc])
      rw [feedAll_append]
      by_cases hlast : last = []
      · subst hlast
        rw [List.append_nil] at heq
        rw [ih heq hcuts', feedAll, show feed ⟨p, []⟩ [] = _ from parse_idle hidle]
        rfl
      · obtain ⟨q, huses, hprogress⟩ := (Progress.start p value).usesUp hidle hadmits hagg
          heq.symm hlast hcuts'
        have hparse := hprogress.complete hidle hadmits hagg heq.symm []
        rw [List.append_nil] at hparse
        rw [huses.feedAll, feedAll, show feed ⟨q, []⟩ last = _ from hparse]
        rfl

theorem feed_uncorrupted_of_boundaries (hidle : p.Idle) (hadmits : Admits p value)
    (hagg : value.isAggregate = true) {chunks : List Bytes}
    (heq : chunks.flatten = encode value)
    (hcuts : ∀ pre post, chunks = pre ++ post → AtBoundary value pre.flatten)
    {pre post : List Bytes} {chunk : Bytes} (hsplit : chunks = pre ++ chunk :: post) :
    Uncorrupted value (pre ++ [chunk]) (feed (feedAll ⟨p, []⟩ pre) chunk).1 := by
  have hpre : ∀ pre' post', pre = pre' ++ post' → AtBoundary value pre'.flatten :=
    fun pre' post' h => hcuts pre' (post' ++ chunk :: post) (by rw [hsplit, h, List.append_assoc])
  have hwhole : encode value = pre.flatten ++ chunk ++ post.flatten := by
    rw [← heq, hsplit]
    simp
  by_cases hdone : chunk ++ post.flatten = []
  · -- the value is complete and only empty chunks are left
    obtain ⟨rfl, hpost⟩ := List.append_eq_nil_iff.mp hdone
    rw [hpost, List.append_nil, List.append_nil] at hwhole
    rw [feedAll_whole hidle hadmits hagg hwhole.symm hpre]
    exact Or.inl (congrArg Prod.fst (parse_idle hidle))
  · have hstart : encode value = [] ++ pre.flatten ++ (chunk ++ post.flatten) := by
      simpa using hwhole
    obtain ⟨q, huses, hprogress⟩ := (Progress.start p value).usesUp hidle hadmits hagg
      hstart hdone (by simpa using hpre)
    rw [List.nil_append] at hprogress
    rw [huses.feedAll]
    by_cases hpost : post.flatten = []
    · rw [hpost, List.append_nil] at hwhole
      have hparse := hprogress.complete hidle hadmits hagg hwhole []
      rw [List.append_nil] at hparse
      exact Or.inr (Or.inr ⟨congrArg Prod.fst hparse, by simpa using hwhole.symm⟩)
    · have hcut : AtBoundary value (pre.flatten ++ chunk) := by
        have h := hcuts (pre ++ [chunk]) post (by rw [hsplit]; simp)
        simpa using h
      obtain ⟨q', hparse, -⟩ := hprogress.suspend hidle hadmits hagg hwhole hpost hcut
      exact Or.inl (congrArg Prod.fst hparse)

/-- No value but the encoded one is returned as long as the chunks keep the
elements whole or tear the length line's CRLF apart. -/
theorem feed_aggregate_uncorrupted (p : RespParser) (hidle : p.Idle) (value : RespValue)
    (hadmits : Admits p value) (hagg : value.isAggregate = true) (chunks : List Bytes)
    (heq : chunks.flatten = encode value) (hcuts : CutsCleanly value chunks)
    (pre post : List Bytes) (chunk : Bytes) (hsplit : chunks = pre ++ chunk :: post) :
    Uncorrupted value (pre ++ [chunk]) (feed (feedAll ⟨p, []⟩ pre) chunk).1 := by
  rcases hcuts with ⟨split, rest, hchunks, hheader⟩ | hcuts
  · exact feed_uncorrupted_of_split_header hidle hadmits.writable.self
      (hchunks.symm.trans hsplit) hheader
  · exact feed_uncorrupted_of_boundaries hidle hadmits hagg heq hcuts hsplit

end

namespace Witness

theorem idle_new : RespParser.new.Idle :=
  ⟨rfl, rfl⟩

/-- A map with one pair. -/
def onePair : RespValue :=
  .map [(.simpleString (ascii "k"), .integer 1)]

theorem admits_onePair : Admits RespParser.new onePair := by
  refine ⟨?_, ?_, by decide⟩
  · simp [onePair, Everywhere, EverywhereInPairs, FitsLimits, RespParser.new]
  · simp only [onePair, Everywhere, EverywhereInPairs, Writable]
    decide

/-- Cut after the type byte, after the length line and between key and value. -/
theorem feed_resumes_onePair :
    feed (feedAll ⟨RespParser.new, []⟩ [ascii "%", ascii "1\r\n", ascii "+k\r\n"])
        (ascii ":1\r\n" ++ ascii "_") =
      (.ok (some onePair), ⟨RespParser.new, ascii "_"⟩) := by
  refine (feed_resumes_aggregate RespParser.new idle_new onePair admits_onePair
    (by simp [onePair, items, pairItems]) [ascii "%", ascii "1\r\n", ascii "+k\r\n"]
    (ascii ":1\r\n") (ascii "_") rfl (by decide) ?_).2
  intro pre post hsplit
  have hpre : pre ∈ List.inits _ := (List.mem_inits _ _).mpr ⟨post, hsplit.symm⟩
  simp only [List.cons_append, List.nil_append, List.inits, List.map_cons, List.map_nil,
    List.mem_cons, List.not_mem_nil, or_false] at hpre
  rcases hpre with rfl | rfl | rfl | rfl | rfl
  · exact Or.inl ⟨ascii "%1\r\n", rfl, by decide⟩
  · exact Or.inl ⟨ascii "1\r\n", rfl, by decide⟩
  · exact Or.inr ⟨[], _, rfl, rfl⟩
  · exact Or.inr ⟨[.simpleString (ascii "k")], [.integer 1], rfl, rfl⟩
  · exact Or.inr ⟨_, [], (List.append_nil _).symm, rfl⟩

/-- One element whose text holds a type byte. -/
def plusInside : RespValue :=
  .array (some [.simpleString (ascii "A+B")])

theorem admits_plusInside : Admits RespParser.new plusInside := by
  refine ⟨?_, ?_, by decide⟩
  · simp [plusInside, Everywhere, EverywhereIn, FitsLimits, RespParser.new]
  · simp only [plusInside, Everywhere, EverywhereIn, Writable]
    decide

theorem feed_uncorrupted_plusInside :
    Uncorrupted plusInside [ascii "*1\r\n", ascii "+A+B\r\n"]
      (feed (feedAll ⟨RespParser.new, []⟩ [ascii "*1\r\n"]) (ascii "+A+B\r\n")).1 := by
  refine feed_aggregate_uncorrupted RespParser.new idle_new plusInside admits_plusInside rfl
    [ascii "*1\r\n", ascii "+A+B\r\n"] rfl (Or.inr ?_) [ascii "*1\r\n"] [] (ascii "+A+B\r\n") rfl
  intro pre post hsplit
  have hpre : pre ∈ List.inits _ := (List.mem_inits _ _).mpr ⟨post, hsplit.symm⟩
  simp only [List.inits, List.map_cons, List.map_nil,
    List.mem_cons, List.not_mem_nil, or_false] at hpre
  rcases hpre with rfl | rfl | rfl
  · exact Or.inl ⟨ascii "*1\r\n", rfl, by decide⟩
  · exact Or.inr ⟨[], _, rfl, rfl⟩
  · exact Or.inr ⟨_, [], (List.append_nil _).symm, rfl⟩

/-- Cut inside its element the array comes back with another text in it. -/
theorem feed_corrupts_plusInside :
    Admits RespParser.new plusInside ∧
      [ascii "*1\r\n+A", ascii "+B\r\n"].flatten = encode plusInside ∧
      (feed (feedAll ⟨RespParser.new, []⟩ [ascii "*1\r\n+A"]) (ascii "+B\r\n")).1 =
        .ok (some (.array (some [.simpleString (ascii "B")]))) ∧
      ¬ Uncorrupted plusInside [ascii "*1\r\n+A", ascii "+B\r\n"]
        (feed (feedAll ⟨RespParser.new, []⟩ [ascii "*1\r\n+A"]) (ascii "+B\r\n")).1 := by
  have hcall : (feed (feedAll ⟨RespParser.new, []⟩ [ascii "*1\r\n+A"]) (ascii "+B\r\n")).1 =
      .ok (some (.array (some [.simpleString (ascii "B")]))) := rfl
  refine ⟨admits_plusInside, rfl, hcall, ?_⟩
  rw [hcall]
  rintro (hnone | ⟨e, herr⟩ | ⟨hvalue, -⟩)
  · cases hnone
  · cases herr
  · simp only [plusInside, Outcome.ok.injEq, Option.some.injEq, array.injEq, List.cons.injEq,
      simpleString.injEq, and_true] at hvalue
    exact absurd hvalue (by decide)

end Witness

end Seshat
