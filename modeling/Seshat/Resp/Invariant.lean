/-
What every call keeps.  A ghost level counts the aggregates around the current
call: the nesting counter never falls below it, an open frame lies one level
above it, and every value handed out fits into what is left of `max_depth`.
-/
import Seshat.Resp.Parse

namespace Seshat

open CallMachine RespValue

/-- A value within the limits when `level` aggregates are open around it. -/
def Fits (p : RespParser) (level : Nat) (value : RespValue) : Prop :=
  value.Everywhere (FitsLimits p) ∧ value.nesting + level ≤ p.maxDepth

/-- A frame that waits for elements, together with those it holds, stays within
`max_array_len`, and each of them fits at the frame's own level. -/
def Frame.Within (p : RespParser) (level : Nat) : Frame → Prop
  | .seq _ rem elems =>
      0 < rem ∧ elems.length + rem ≤ p.maxArrayLen ∧ ∀ v ∈ elems, Fits p level v
  | .map rem pairs key =>
      0 < rem ∧ pairs.length + rem ≤ p.maxArrayLen ∧
        (∀ pair ∈ pairs, Fits p level pair.1 ∧ Fits p level pair.2) ∧
        ∀ v ∈ key, Fits p level v

/-- What a state remembers, by state. -/
def ParseState.Sound (p : RespParser) (level : Nat) : ParseState → Prop
  | .bulkData _ len data => len ≤ p.maxBulkSize ∧ data.length ≤ len + 1
  | .seqData kind rem elems =>
      level + 1 ≤ p.currentDepth ∧ (Frame.seq kind rem elems).Within p (level + 1)
  | .mapData rem pairs key =>
      level + 1 ≤ p.currentDepth ∧ (Frame.map rem pairs key).Within p (level + 1)
  | _ => True

/-- The invariant of a parser with `level` aggregates around the call. -/
structure RespParser.Inv (level : Nat) (p : RespParser) : Prop where
  level_le : level ≤ p.currentDepth
  depth_le : p.currentDepth ≤ p.maxDepth
  sound : p.state.Sound p level

theorem RespParser.inv_fresh (bulkSize arrayLen depth : Nat) :
    (RespParser.fresh bulkSize arrayLen depth).Inv 0 :=
  ⟨le_rfl, Nat.zero_le _, trivial⟩

theorem RespParser.SameLimits.refl (p : RespParser) : p.SameLimits p :=
  ⟨rfl, rfl, rfl⟩

theorem RespParser.SameLimits.trans {p q r : RespParser} (hpq : p.SameLimits q)
    (hqr : q.SameLimits r) : p.SameLimits r :=
  ⟨hpq.1.trans hqr.1, hpq.2.1.trans hqr.2.1, hpq.2.2.trans hqr.2.2⟩

theorem Fits.congr {p q : RespParser} (h : p.SameLimits q) : Fits p = Fits q := by
  funext level value
  simp only [Fits, FitsLimits.congr h, h.2.2]

theorem Frame.Within.congr {p q : RespParser} (h : p.SameLimits q) (level : Nat)
    (frame : Frame) : frame.Within p level ↔ frame.Within q level := by
  cases frame <;> simp only [Frame.Within, Fits.congr h, h.2.1]

theorem Frame.Within.remaining_ne_zero {p : RespParser} {level : Nat} {frame : Frame}
    (h : frame.Within p level) : frame.remaining ≠ 0 := by
  cases frame with
  | seq kind rem elems => exact Nat.pos_iff_ne_zero.mp h.1
  | map rem pairs key => exact Nat.pos_iff_ne_zero.mp h.1

theorem Frame.sound_state {p : RespParser} {level : Nat} {frame : Frame} :
    frame.state.Sound p level ↔
      level + 1 ≤ p.currentDepth ∧ frame.Within p (level + 1) := by
  cases frame <;> exact Iff.rfl

theorem ReadsLine.sound {keep : Bytes → ParseState} (h : ReadsLine keep) (data : Bytes)
    (p : RespParser) (level : Nat) : (keep data).Sound p level := by
  cases h <;> trivial

theorem Plain.fits {p : RespParser} {value : RespValue} (h : Plain value) {level : Nat}
    (hlevel : level ≤ p.maxDepth) : Fits p level value := by
  cases h with
  | emptySeq kind =>
      cases kind <;>
        simp [Fits, SeqKind.value, Everywhere, EverywhereIn, FitsLimits, nesting, nestingIn,
          hlevel]
  | _ =>
      simp [Fits, Everywhere, EverywhereInPairs, FitsLimits, nesting, nestingInPairs, hlevel]

/-- A complete body fits because its length was checked. -/
theorem BulkKind.fits_of_value {p : RespParser} {kind : BulkKind} {body : Bytes}
    {value : RespValue} (hvalue : kind.value body = some value)
    (hmax : body.length ≤ p.maxBulkSize) {level : Nat} (hlevel : level ≤ p.maxDepth) :
    Fits p level value := by
  cases kind with
  | bulkString =>
      cases hvalue
      simp [Fits, Everywhere, FitsLimits, nesting, hmax, hlevel]
  | bulkError =>
      cases hvalue
      simp [Fits, Everywhere, FitsLimits, nesting, hmax, hlevel]
  | verbatimString =>
      unfold BulkKind.value at hvalue
      split at hvalue
      · contradiction
      · contradiction
      · split at hvalue
        · cases hvalue
          simp only [List.length_cons] at hmax
          refine ⟨?_, by simp [nesting, hlevel]⟩
          simp only [Everywhere, FitsLimits]
          omega
        · cases hvalue
      · cases hvalue

theorem Frame.Grows.within {p : RespParser} {level : Nat} {frame frame' : Frame}
    {element : RespValue} (hgrows : frame.Grows element frame')
    (hframe : frame.Within p level) (helement : Fits p level element) :
    frame'.Within p level := by
  cases hgrows with
  | element kind rem elems =>
      obtain ⟨-, hcount, helems⟩ := hframe
      refine ⟨Nat.succ_pos _, by simp; omega, ?_⟩
      exact List.forall_mem_append.mpr ⟨helems, List.forall_mem_singleton.mpr helement⟩
  | key rem pairs =>
      obtain ⟨hrem, hcount, hpairs, -⟩ := hframe
      refine ⟨hrem, hcount, hpairs, ?_⟩
      intro v hv
      rwa [Option.mem_some.mp hv] at helement
  | pair rem pairs key =>
      obtain ⟨-, hcount, hpairs, hkey⟩ := hframe
      refine ⟨Nat.succ_pos _, by simp; omega, ?_, by simp⟩
      exact List.forall_mem_append.mpr
        ⟨hpairs, List.forall_mem_singleton.mpr ⟨hkey key rfl, helement⟩⟩

theorem fits_seq {p : RespParser} {level : Nat} {kind : SeqKind} {elems : List RespValue}
    (hcount : elems.length ≤ p.maxArrayLen) (hlevel : level ≤ p.maxDepth)
    (helems : ∀ v ∈ elems, Fits p (level + 1) v) : Fits p level (kind.value elems) := by
  have hall : EverywhereIn (FitsLimits p) elems :=
    everywhereIn_iff.mpr fun v hv => (helems v hv).1
  have hnest : nestingIn elems ≤ p.maxDepth - level := by
    rw [nestingIn_le_iff]
    intro v hv
    have := (helems v hv).2
    omega
  cases kind <;>
    exact ⟨⟨hcount, hall⟩, by simp only [SeqKind.value, nesting]; omega⟩

theorem fits_map {p : RespParser} {level : Nat} {pairs : List (RespValue × RespValue)}
    (hcount : pairs.length ≤ p.maxArrayLen) (hlevel : level ≤ p.maxDepth)
    (hpairs : ∀ pair ∈ pairs, Fits p (level + 1) pair.1 ∧ Fits p (level + 1) pair.2) :
    Fits p level (.map pairs) := by
  have hall : EverywhereInPairs (FitsLimits p) pairs :=
    everywhereInPairs_iff.mpr fun pair hpair =>
      ⟨(hpairs pair hpair).1.1, (hpairs pair hpair).2.1⟩
  have hnest : nestingInPairs pairs ≤ p.maxDepth - level := by
    rw [nestingInPairs_le_iff]
    intro pair hpair
    obtain ⟨⟨-, hkey⟩, ⟨-, hvalue⟩⟩ := hpairs pair hpair
    omega
  exact ⟨⟨hcount, hall⟩, by simp only [nesting]; omega⟩

theorem Frame.Closes.fits {p : RespParser} {level : Nat} {frame : Frame}
    {element value : RespValue} (hcloses : frame.Closes element value)
    (hlevel : level ≤ p.maxDepth) (hframe : frame.Within p (level + 1))
    (helement : Fits p (level + 1) element) : Fits p level value := by
  cases hcloses with
  | element kind elems =>
      obtain ⟨-, hcount, helems⟩ := hframe
      refine fits_seq (by simpa using hcount) hlevel ?_
      exact List.forall_mem_append.mpr ⟨helems, List.forall_mem_singleton.mpr helement⟩
  | pair pairs key =>
      obtain ⟨-, hcount, hpairs, hkey⟩ := hframe
      refine fits_map (by simpa using hcount) hlevel ?_
      exact List.forall_mem_append.mpr
        ⟨hpairs, List.forall_mem_singleton.mpr ⟨hkey key rfl, helement⟩⟩

/-- What a call may answer and leave behind, seen from the level it runs at. -/
structure Guarded (level : Nat) (s : Cursor) (outcome : Outcome) (t : Cursor) : Prop where
  limits : t.parser.SameLimits s.parser
  inv : outcome ≠ .panic → t.parser.Inv level
  fits : ∀ value, outcome = .ok (some value) →
    Fits s.parser level value ∧ t.parser.state = .waitingForType

/-- From a parser that meets the invariant a call is guarded. -/
def Guards (s : Cursor) (outcome : Outcome) (t : Cursor) : Prop :=
  ∀ level, s.parser.Inv level → Guarded level s outcome t

theorem RespParser.Inv.level_le_maxDepth {level : Nat} {p : RespParser} (h : p.Inv level) :
    level ≤ p.maxDepth :=
  h.level_le.trans h.depth_le

theorem RespParser.Inv.waiting {level : Nat} {p : RespParser} (h : p.Inv level) :
    RespParser.Inv level { p with state := .waitingForType } :=
  ⟨h.level_le, h.depth_le, trivial⟩

theorem Exits.guarded {p : RespParser} {buf : Bytes} {outcome : Outcome} {c : Cursor}
    (h : Exits p buf outcome c) {level : Nat} (hinv : p.Inv level) :
    Guarded level ⟨p, buf⟩ outcome c := by
  have hlevel := hinv.level_le_maxDepth
  have hwithin : ∀ {state : ParseState}, state.Sound p level →
      RespParser.Inv level { p with state := state } :=
    fun hstate => ⟨hinv.level_le, hinv.depth_le, hstate⟩
  cases h with
  | idle hp => exact ⟨.refl p, fun _ => hinv, by simp⟩
  | short hp rest hb => exact ⟨.refl p, fun _ => hinv, by simp⟩
  | badMarker hp rest hb e => exact ⟨.refl p, fun _ => hinv, by simp⟩
  | immediate hp hv body rest =>
      refine ⟨.refl p, fun _ => hinv.waiting, ?_⟩
      rintro _ ⟨⟩
      exact ⟨hv.fits hlevel, rfl⟩
  | moreLine hkeep hp hbuf =>
      exact ⟨.refl p, fun _ => hwithin (hkeep.sound _ p level), by simp⟩
  | badLine hkeep hp hline rest e =>
      exact ⟨.refl p, fun _ => hwithin (hkeep.sound _ p level), by simp⟩
  | lineValue hkeep hp hv line skipped rest =>
      refine ⟨.refl p, fun _ => hinv.waiting, ?_⟩
      rintro _ ⟨⟩
      exact ⟨hv.fits hlevel, rfl⟩
  | emptyBody hp hkind hline hlen hzero rest =>
      exact ⟨.refl p, fun _ => hwithin ⟨Nat.zero_le _, Nat.zero_le _⟩, by simp⟩
  | moreBody hp hbuf =>
      have hsound := hinv.sound
      rw [hp] at hsound
      refine ⟨.refl p, fun _ => hwithin ⟨hsound.1, ?_⟩, by simp⟩
      simp only [List.length_append]
      omega
  | badBody hp hbody hrest e =>
      have hsound := hinv.sound
      rw [hp] at hsound
      refine ⟨.refl p, fun _ => hwithin ⟨hsound.1, ?_⟩, by simp⟩
      simp only [List.length_append]
      omega
  | bodyValue hp hbody hv rest =>
      have hsound := hinv.sound
      rw [hp] at hsound
      refine ⟨.refl p, fun _ => hinv.waiting, ?_⟩
      rintro _ ⟨⟩
      refine ⟨BulkKind.fits_of_value hv ?_ hlevel, rfl⟩
      rw [List.length_append, hbody]
      exact hsound.1
  | bodyPanic hp hdata hbuf => exact ⟨.refl p, by simp, by simp⟩
  | spent hp hrem =>
      have hsound := hinv.sound
      rw [hp, Frame.sound_state] at hsound
      exact absurd hrem hsound.2.remaining_ne_zero

theorem Continues.inv {p : RespParser} {buf : Bytes} {c : Cursor} (h : Continues p buf c)
    {level : Nat} (hinv : p.Inv level) :
    c.parser.SameLimits p ∧ c.parser.Inv level := by
  cases h with
  | marker hp hb rest =>
      obtain ⟨keep, hkeep, rfl⟩ := readsLine_of_markerState hb
      exact ⟨.refl p, hinv.level_le, hinv.depth_le, hkeep.sound _ _ level⟩
  | openBody hp hline hlen hmin hmax rest =>
      exact ⟨.refl p, hinv.level_le, hinv.depth_le, hmax, Nat.zero_le _⟩
  | openFrame hkeep hp hframe hempty hdepth line rest =>
      refine ⟨.refl p, Nat.le_succ_of_le hinv.level_le, hdepth, ?_⟩
      rw [Frame.sound_state]
      refine ⟨Nat.succ_le_succ hinv.level_le, ?_⟩
      rcases hempty with ⟨kind, heq⟩ | heq
      · rw [heq]
        exact ⟨Nat.pos_iff_ne_zero.mpr hframe.1, by simpa using hframe.2, by simp⟩
      · rw [heq]
        exact ⟨Nat.pos_iff_ne_zero.mpr hframe.1, by simpa using hframe.2, by simp, by simp⟩

/-- The callee of an aggregate runs one level further in. -/
theorem RespParser.Inv.callee {level : Nat} {p : RespParser} (hinv : p.Inv level)
    {frame : Frame} (hp : p.state = frame.state) :
    frame.Within p (level + 1) ∧
      RespParser.Inv (level + 1) { p with state := .waitingForType } := by
  have hsound := hinv.sound
  rw [hp, Frame.sound_state] at hsound
  exact ⟨hsound.2, hsound.1, hinv.depth_le, trivial⟩

/-- The callee leaves the frame's own state sound when it is put back. -/
theorem Frame.Within.inv_state {level : Nat} {p q : RespParser} {frame : Frame}
    (hframe : frame.Within p (level + 1)) (hlimits : q.SameLimits p)
    (hinv : q.Inv (level + 1)) : RespParser.Inv level { q with state := frame.state } := by
  refine ⟨Nat.le_of_succ_le hinv.level_le, hinv.depth_le, ?_⟩
  rw [Frame.sound_state]
  refine ⟨hinv.level_le, ?_⟩
  have hlimits' : RespParser.SameLimits { q with state := frame.state } p := hlimits
  exact (Frame.Within.congr hlimits' _ frame).mpr hframe

theorem Frame.Within.lower {p : RespParser} {level : Nat} {frame : Frame}
    (h : frame.Within p (level + 1)) : frame.Within p level := by
  have hfits : ∀ v, Fits p (level + 1) v → Fits p level v :=
    fun v hv => ⟨hv.1, Nat.le_of_succ_le hv.2⟩
  cases frame with
  | seq kind rem elems =>
      obtain ⟨hrem, hcount, helems⟩ := h
      exact ⟨hrem, hcount, fun v hv => hfits v (helems v hv)⟩
  | map rem pairs key =>
      obtain ⟨hrem, hcount, hpairs, hkey⟩ := h
      exact ⟨hrem, hcount,
        fun pair hpair => ⟨hfits _ (hpairs pair hpair).1, hfits _ (hpairs pair hpair).2⟩,
        fun v hv => hfits v (hkey v hv)⟩

theorem RespParser.Inv.lower {level : Nat} {p : RespParser} (h : p.Inv (level + 1)) :
    p.Inv level := by
  refine ⟨Nat.le_of_succ_le h.level_le, h.depth_le, ?_⟩
  have hsound := h.sound
  cases hstate : p.state with
  | seqData kind rem elems =>
      rw [hstate] at hsound
      exact ⟨Nat.le_of_succ_le hsound.1, hsound.2.lower⟩
  | mapData rem pairs key =>
      rw [hstate] at hsound
      exact ⟨Nat.le_of_succ_le hsound.1, hsound.2.lower⟩
  | bulkData kind len data =>
      rw [hstate] at hsound
      exact hsound
  | _ => trivial

theorem Resumed.guarded {frame : Frame} {p : RespParser} {buf : Bytes} {c t : Cursor}
    {outcome outcome' : Outcome} (h : Resumed frame c outcome (.ret outcome' t))
    {level : Nat} (hlevel : level ≤ p.maxDepth) (hframe : frame.Within p (level + 1))
    (hcall : Guarded (level + 1) ⟨{ p with state := .waitingForType }, buf⟩ outcome c) :
    Guarded level ⟨p, buf⟩ outcome' t := by
  have hlimits : c.parser.SameLimits p := hcall.limits
  generalize hnext : Next.ret outcome' t = next at h
  cases h with
  | err e =>
      cases hnext
      exact ⟨hlimits, fun hne => (hcall.inv hne).lower, by simp⟩
  | panic =>
      cases hnext
      exact ⟨hlimits, by simp, by simp⟩
  | missing =>
      cases hnext
      exact ⟨hlimits, fun hne => hframe.inv_state hlimits (hcall.inv hne), by simp⟩
  | grows h => cases hnext
  | closes h =>
      obtain ⟨hfits, hwait⟩ := hcall.fits _ rfl
      have hc := hcall.inv (by simp)
      obtain ⟨-, ⟨-, hdepth, -⟩ | ⟨rfl, hdepth, ht⟩⟩ := leaveAggregate_ret hnext.symm
      · -- the counter is above the level, so it cannot be spent
        have := hc.level_le
        omega
      · have hvalue := h.fits hlevel hframe hfits
        refine ⟨ht ▸ hlimits, fun _ => ?_, ?_⟩
        · rw [ht]
          refine ⟨Nat.le_sub_one_of_lt hc.level_le,
            (Nat.sub_le _ _).trans hc.depth_le, ?_⟩
          rw [hwait]
          trivial
        · rintro _ ⟨⟩
          rw [ht]
          exact ⟨hvalue, hwait⟩

/-- After an element the loop goes on from a parser that meets the invariant. -/
theorem Resumed.loop_inv {frame : Frame} {p : RespParser} {buf : Bytes} {c s : Cursor}
    {outcome : Outcome} (h : Resumed frame c outcome (.loop s)) {level : Nat}
    (hframe : frame.Within p (level + 1))
    (hcall : Guarded (level + 1) ⟨{ p with state := .waitingForType }, buf⟩ outcome c) :
    s.parser.SameLimits p ∧ s.parser.Inv level := by
  obtain ⟨element, frame', rfl, hgrows, rfl⟩ := h.loop_cases
  have hlimits : c.parser.SameLimits p := hcall.limits
  obtain ⟨hfits, -⟩ := hcall.fits _ rfl
  have hframe' := hgrows.within hframe hfits
  exact ⟨hlimits, hframe'.inv_state hlimits (hcall.inv (by simp))⟩

/-- Guarding passes from a later start of the loop to an earlier one. -/
theorem Guarded.of_later {level : Nat} {s s' t : Cursor} {outcome : Outcome}
    (hlimits : s'.parser.SameLimits s.parser) (h : Guarded level s' outcome t) :
    Guarded level s outcome t :=
  ⟨h.limits.trans hlimits, h.inv, fun value hvalue =>
    ⟨Fits.congr hlimits ▸ (h.fits value hvalue).1, (h.fits value hvalue).2⟩⟩

variable [F64Text]

theorem keeps_guards : parseBody.Keeps Guards where
  ret h := fun _ hinv => (exits_of_step h).guarded hinv
  loop h hrest := by
    intro level hinv
    obtain ⟨hlimits, hinv'⟩ := (continues_of_step h).inv hinv
    exact (hrest level hinv').of_later hlimits
  callRet h hcall hresume := by
    intro level hinv
    obtain ⟨hp, hrem, rfl⟩ := calls_of_step h
    obtain ⟨hframe, hcallee⟩ := hinv.callee hp
    exact (resumed_of_resume hrem hresume).guarded hinv.level_le_maxDepth hframe
      (hcall _ hcallee)
  callLoop h hcall hresume hrest := by
    intro level hinv
    obtain ⟨hp, hrem, rfl⟩ := calls_of_step h
    obtain ⟨hframe, hcallee⟩ := hinv.callee hp
    obtain ⟨hlimits, hinv'⟩ :=
      (resumed_of_resume hrem hresume).loop_inv hframe (hcall _ hcallee)
    exact (hrest level hinv').of_later hlimits

/-- Every call from a parser that meets the invariant is guarded. -/
theorem parse_guarded {p : RespParser} {level : Nat} (hinv : p.Inv level) (buf : Bytes) :
    Guarded level ⟨p, buf⟩ (parse ⟨p, buf⟩).1 (parse ⟨p, buf⟩).2 :=
  parseMachine.run_keeps keeps_guards _ level hinv

end Seshat
