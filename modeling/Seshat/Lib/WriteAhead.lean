/-
A process over files with a write-ahead log.  The writes of its calls reach the log in
order.  A synced write waits until the log is on disk up to it; a power outage leaves the
log up to some write behind the last synced one.  What is left then is what a crash of the
process at an earlier moment would have left, and nothing written since was synced.
-/
import Mathlib.Data.List.DropRight

namespace WriteAhead

/-- A process that starts from its files alone and whose calls issue writes to them. -/
structure Process (σ δ ω κ : Type) where
  files : σ → δ
  write : δ → ω → δ
  sync : ω → Bool
  writes : κ → σ → List ω
  after : κ → σ → σ
  start : δ → Option σ
  files_after : ∀ c s, files (after c s) = (writes c s).foldl write (files s)
  files_start : ∀ {d s}, start d = some s → files s = d

/-- The files that are on disk, and the writes of the log that may not be. -/
structure Disk (δ ω : Type) where
  base : δ
  tail : List ω

/-- A process and its disk. -/
structure Running (σ δ ω : Type) where
  state : σ
  disk : Disk δ ω

/-- A call that comes to its end, a crash after some writes of a call, or an outage there
that leaves some of the writes that are not synced. -/
inductive Incident (κ : Type) where
  | call (c : κ)
  | crash (c : κ) (issued : Nat)
  | outage (c : κ) (issued kept : Nat)

namespace Incident

variable {κ ω : Type}

/-- The call that comes to its end or is cut off. -/
def of : Incident κ → κ
  | call c => c
  | crash c _ => c
  | outage c _ _ => c

/-- The first writes of the call, as many as are issued. -/
def cut (writes : List ω) : Incident κ → List ω
  | call _ => writes
  | crash _ issued => writes.take issued
  | outage _ issued _ => writes.take issued

/-- So many writes of the call are issued, if it has them. -/
def reaches (n : Nat) : Incident κ → Bool
  | call _ => true
  | crash _ issued => n ≤ issued
  | outage _ issued _ => n ≤ issued

theorem cut_eq_self {incident : Incident κ} {writes : List ω}
    (h : incident.reaches writes.length = true) : incident.cut writes = writes := by
  cases incident with
  | call c => rfl
  | crash c issued => exact List.take_of_length_le (by simpa [reaches] using h)
  | outage c issued kept => exact List.take_of_length_le (by simpa [reaches] using h)

/-- Writes that are not all issued are cut off before the last one. -/
theorem cut_concat_of_not_reaches {incident : Incident κ} {writes : List ω} {w : ω}
    (h : incident.reaches (writes.length + 1) = false) :
    incident.cut (writes ++ [w]) = incident.cut writes := by
  cases incident with
  | call c => simp [reaches] at h
  | crash c issued =>
      exact List.take_append_of_le_length (by simpa [reaches, Nat.lt_succ_iff] using h)
  | outage c issued kept =>
      exact List.take_append_of_le_length (by simpa [reaches, Nat.lt_succ_iff] using h)

@[simp]
theorem cut_nil (incident : Incident κ) : incident.cut ([] : List ω) = [] := by
  cases incident <;> simp [cut]

/-- A call that is cut off before its first write. -/
theorem cut_eq_nil {incident : Incident κ} (h : incident.reaches 1 = false)
    (writes : List ω) : incident.cut writes = [] := by
  cases incident with
  | call c => simp [reaches] at h
  | crash c issued =>
      obtain rfl : issued = 0 := by simpa [reaches] using h
      rfl
  | outage c issued kept =>
      obtain rfl : issued = 0 := by simpa [reaches] using h
      rfl

/-- A call that is cut off behind its first write. -/
theorem exists_cut_cons {incident : Incident κ} (h : incident.reaches 1 = true) (w : ω)
    (writes : List ω) : ∃ rest, rest ⊆ writes ∧ incident.cut (w :: writes) = w :: rest := by
  have htake : ∀ issued, 1 ≤ issued →
      ∃ rest, rest ⊆ writes ∧ (w :: writes).take issued = w :: rest := by
    intro issued hissued
    obtain ⟨n, rfl⟩ := Nat.exists_eq_add_of_le hissued
    exact ⟨writes.take n, List.take_subset n writes, by rw [Nat.add_comm, List.take_succ_cons]⟩
  cases incident with
  | call c => exact ⟨writes, List.Subset.refl writes, rfl⟩
  | crash c issued => exact htake issued (by simpa [reaches] using h)
  | outage c issued kept => exact htake issued (by simpa [reaches] using h)

theorem cut_subset (incident : Incident κ) (writes : List ω) : incident.cut writes ⊆ writes := by
  cases incident with
  | call c => exact List.Subset.refl writes
  | crash c issued => exact List.take_subset issued writes
  | outage c issued kept => exact List.take_subset issued writes

end Incident

namespace Process

variable {σ δ ω κ : Type} (P : Process σ δ ω κ)

/-- A synced write takes everything before it along. -/
def log (d : Disk δ ω) (w : ω) : Disk δ ω :=
  if P.sync w then ⟨(d.tail ++ [w]).foldl P.write d.base, []⟩ else ⟨d.base, d.tail ++ [w]⟩

/-- A process that has just started: its files are on disk. -/
def started (s : σ) : Running σ δ ω := ⟨s, ⟨P.files s, []⟩⟩

/-- The files after a crash. -/
def crashed (s : σ) (c : κ) (issued : Nat) : δ :=
  ((P.writes c s).take issued).foldl P.write (P.files s)

def step (p : Running σ δ ω) : Incident κ → Option (Running σ δ ω)
  | .call c => some ⟨P.after c p.state, (P.writes c p.state).foldl P.log p.disk⟩
  | .crash c issued => (P.start (P.crashed p.state c issued)).map P.started
  | .outage c issued kept =>
      let disk := ((P.writes c p.state).take issued).foldl P.log p.disk
      (P.start ((disk.tail.take kept).foldl P.write disk.base)).map P.started

def run (p : Running σ δ ω) : List (Incident κ) → Option (Running σ δ ω)
  | [] => some p
  | incident :: incidents => (P.step p incident).bind (run · incidents)

/-- The writes of calls that follow each other. -/
def callWrites (s : σ) : List κ → List ω
  | [] => []
  | c :: calls => P.writes c s ++ callWrites (P.after c s) calls

/-- The writes of calls that follow each other, the last of which is cut off. -/
def issuedWrites (s : σ) (issued : Nat) : List κ → List ω
  | [] => []
  | [c] => (P.writes c s).take issued
  | c :: calls => P.writes c s ++ issuedWrites (P.after c s) issued calls

/-- The process after calls. -/
def afterCalls (s : σ) (calls : List κ) : σ :=
  calls.foldl (fun s c => P.after c s) s

variable {P} {p q : Running σ δ ω}

theorem run_append (incidents incidents' : List (Incident κ)) :
    P.run p (incidents ++ incidents') = (P.run p incidents).bind (P.run · incidents') := by
  induction incidents generalizing p with
  | nil => rfl
  | cons incident incidents ih =>
      rw [List.cons_append, run, run]
      cases P.step p incident with
      | none => rfl
      | some q => exact ih

theorem run_concat_eq_some {incidents : List (Incident κ)} {incident : Incident κ} :
    P.run p (incidents ++ [incident]) = some q ↔
      ∃ r, P.run p incidents = some r ∧ P.step r incident = some q := by
  have hlast : ∀ r, P.run r [incident] = P.step r incident := by
    intro r
    rw [run]
    cases P.step r incident <;> rfl
  rw [run_append, Option.bind_eq_some_iff]
  simp only [hlast]

theorem issuedWrites_concat (s : σ) (issued : Nat) (calls : List κ) (c : κ) :
    P.issuedWrites s issued (calls ++ [c]) =
      P.callWrites s calls ++ (P.writes c (P.afterCalls s calls)).take issued := by
  induction calls generalizing s with
  | nil => rfl
  | cons first calls ih =>
      rw [callWrites, List.append_assoc]
      have hrest := ih (P.after first s)
      cases calls with
      | nil => exact congrArg (P.writes first s ++ ·) hrest
      | cons second calls => exact congrArg (P.writes first s ++ ·) hrest

theorem files_afterCalls (s : σ) (calls : List κ) :
    P.files (P.afterCalls s calls) = (P.callWrites s calls).foldl P.write (P.files s) := by
  induction calls generalizing s with
  | nil => rfl
  | cons c calls ih =>
      rw [callWrites, List.foldl_append, ← P.files_after]
      exact ih (P.after c s)

theorem crashed_afterCalls (s : σ) (calls : List κ) (c : κ) (issued : Nat) :
    (P.callWrites s calls ++ (P.writes c (P.afterCalls s calls)).take issued).foldl P.write
      (P.files s) = P.crashed (P.afterCalls s calls) c issued := by
  rw [List.foldl_append, ← files_afterCalls, crashed]

/-- The process and its disk after calls. -/
theorem run_calls (calls : List κ) :
    P.run p (calls.map .call) =
      some ⟨P.afterCalls p.state calls, (P.callWrites p.state calls).foldl P.log p.disk⟩ := by
  induction calls generalizing p with
  | nil => rfl
  | cons c calls ih =>
      rw [List.map_cons, run, step, Option.bind_some, ih, callWrites, List.foldl_append]
      rfl

/-- The log is on disk up to the last synced write. -/
theorem foldl_log (d : δ) (ws : List ω) :
    ws.foldl P.log ⟨d, []⟩ =
      ⟨(ws.rdropWhile (!P.sync ·)).foldl P.write d, ws.rtakeWhile (!P.sync ·)⟩ := by
  induction ws using List.reverseRecOn with
  | nil => rfl
  | append_singleton ws w ih =>
      rw [List.foldl_concat, ih, log, List.rdropWhile_concat, List.rtakeWhile_concat]
      cases hsync : P.sync w with
      | true =>
          have hwhole : (ws.rtakeWhile (!P.sync ·) ++ [w]).foldl P.write
              ((ws.rdropWhile (!P.sync ·)).foldl P.write d) = (ws ++ [w]).foldl P.write d := by
            rw [← List.foldl_append, ← List.append_assoc, List.rdropWhile_append_rtakeWhile]
          simp [hwhole]
      | false => simp

/-- Writes that are not synced gather behind the others. -/
theorem foldl_log_unsynced {ws : List ω} (hws : ∀ w ∈ ws, P.sync w = false) (d : Disk δ ω) :
    ws.foldl P.log d = ⟨d.base, d.tail ++ ws⟩ := by
  induction ws generalizing d with
  | nil => simp
  | cons w ws ih =>
      rw [List.foldl_cons, ih (fun v hv => hws v (List.mem_cons_of_mem w hv)), log,
        if_neg (by simp [hws w List.mem_cons_self])]
      simp

/-- What an outage can leave: the writes up to some moment since the last synced one. -/
theorem outage_files (d : δ) (ws : List ω) (kept : Nat) :
    ∃ m, (((ws.foldl P.log ⟨d, []⟩).tail.take kept).foldl P.write
        (ws.foldl P.log ⟨d, []⟩).base) = (ws.take m).foldl P.write d ∧
      ∀ w ∈ ws.drop m, P.sync w = false := by
  let unsynced := ws.rtakeWhile (!P.sync ·)
  let synced := ws.rdropWhile (!P.sync ·)
  have hws : synced ++ unsynced = ws := List.rdropWhile_append_rtakeWhile
  refine ⟨synced.length + kept, ?_, fun w hw => ?_⟩
  · have htake : ws.take (synced.length + kept) = synced ++ unsynced.take kept := by
      rw [← List.take_length_add_append, hws]
    rw [foldl_log, ← List.foldl_append, htake]
  · rw [← hws, List.drop_length_add_append] at hw
    simpa using List.mem_rtakeWhile_imp (List.mem_of_mem_drop hw)

/-- Some of the writes that were issued are those of the first calls and some of the next
one; the others were issued by that call and those behind it. -/
theorem take_issuedWrites (s : σ) (issued m : Nat) {calls : List κ} (hcalls : calls ≠ []) :
    ∃ before c' issued' behind, calls = before ++ c' :: behind ∧
      (behind = [] → issued' ≤ issued) ∧
      (P.issuedWrites s issued calls).take m =
        P.callWrites s before ++ (P.writes c' (P.afterCalls s before)).take issued' ∧
      P.issuedWrites (P.afterCalls s before) issued (c' :: behind) =
        (P.writes c' (P.afterCalls s before)).take issued' ++
          (P.issuedWrites s issued calls).drop m := by
  induction calls generalizing s m with
  | nil => exact absurd rfl hcalls
  | cons first calls ih =>
      cases calls with
      | nil =>
          have htake : (P.writes first s).take (min m issued) =
              ((P.writes first s).take issued).take m := List.take_take.symm
          refine ⟨[], first, min m issued, [], rfl, fun _ => Nat.min_le_right _ _, htake.symm, ?_⟩
          change (P.writes first s).take issued = (P.writes first s).take (min m issued) ++ _
          rw [htake]
          exact (List.take_append_drop m _).symm
      | cons second calls =>
          rw [issuedWrites]
          · rcases Nat.le_total m (P.writes first s).length with hm | hm
            · refine ⟨[], first, m, second :: calls, rfl, by simp, ?_, ?_⟩
              · rw [List.take_append_of_le_length hm]
                rfl
              · change P.writes first s ++ P.issuedWrites (P.after first s) issued _ = _
                rw [List.drop_append_of_le_length hm, ← List.append_assoc]
                exact congrArg (· ++ _) (List.take_append_drop m _).symm
            · obtain ⟨before, c', issued', behind, hsplit, hlast, htake, hsince⟩ :=
                ih (P.after first s) (m - (P.writes first s).length) (by simp)
              refine ⟨first :: before, c', issued', behind, by rw [hsplit]; rfl, hlast, ?_, ?_⟩
              · rw [List.take_append, List.take_of_length_le hm, htake, callWrites,
                  List.append_assoc]
                rfl
              · rw [List.drop_append, List.drop_eq_nil_of_le hm, List.nil_append]
                exact hsince
          · simp

/-- Every run is a run up to the last start and the calls since. -/
theorem exists_epoch {s₀ : σ} {incidents : List (Incident κ)}
    (hrun : P.run (P.started s₀) incidents = some p) :
    ∃ (pre : List (Incident κ)) (s : σ) (calls : List κ), incidents = pre ++ calls.map .call ∧
      P.run (P.started s₀) pre = some (P.started s) ∧
      P.run (P.started s) (calls.map .call) = some p := by
  induction incidents using List.reverseRecOn generalizing p with
  | nil => exact ⟨[], s₀, [], rfl, rfl, hrun⟩
  | append_singleton incidents incident ih =>
      obtain ⟨r, hr, hstep⟩ := run_concat_eq_some.mp hrun
      have hrestart : ∀ s, p = P.started s →
          ∃ (pre : List (Incident κ)) (s : σ) (calls : List κ),
            incidents ++ [incident] = pre ++ calls.map .call ∧
            P.run (P.started s₀) pre = some (P.started s) ∧
            P.run (P.started s) (calls.map .call) = some p := by
        rintro s rfl
        exact ⟨incidents ++ [incident], s, [], by simp, hrun, rfl⟩
      cases incident with
      | call c =>
          obtain ⟨pre, s, calls, rfl, hpre, hcalls⟩ := ih hr
          refine ⟨pre, s, calls ++ [c], by simp, hpre, ?_⟩
          rw [List.map_append]
          exact run_concat_eq_some.mpr ⟨r, hcalls, hstep⟩
      | crash c issued =>
          obtain ⟨s, -, hs⟩ := Option.map_eq_some_iff.mp hstep
          exact hrestart s hs.symm
      | outage c issued kept =>
          obtain ⟨s, -, hs⟩ := Option.map_eq_some_iff.mp hstep
          exact hrestart s hs.symm

theorem foldl_part {τ : Type} {part : δ → τ}
    (hpart : ∀ d w, P.sync w = false → part (P.write d w) = part d) {ws : List ω}
    (hws : ∀ w ∈ ws, P.sync w = false) (d : δ) : part (ws.foldl P.write d) = part d := by
  induction ws generalizing d with
  | nil => rfl
  | cons w ws ih =>
      rw [List.foldl_cons, ih fun v hv => hws v (List.mem_cons_of_mem w hv)]
      exact hpart d w (hws w List.mem_cons_self)

/-- What an outage leaves after calls since the start: the files of an earlier moment, with
no synced write behind it. -/
theorem outage_moment {s s' : σ} {calls : List κ} {c : κ} {issued kept : Nat}
    (hcalls : P.run (P.started s) (calls.map .call) = some p)
    (hstep : P.step p (.outage c issued kept) = some (P.started s')) :
    ∃ m, P.start (((P.issuedWrites s issued (calls ++ [c])).take m).foldl P.write (P.files s)) =
        some s' ∧
      (∀ w ∈ (P.issuedWrites s issued (calls ++ [c])).drop m, P.sync w = false) ∧
      ∀ {τ : Type} (part : δ → τ), (∀ d w, P.sync w = false → part (P.write d w) = part d) →
        part (P.files s') = part (P.crashed p.state c issued) := by
  rw [run_calls] at hcalls
  obtain rfl := Option.some.inj hcalls
  obtain ⟨s'', hstart, heq⟩ := Option.map_eq_some_iff.mp hstep
  obtain rfl : s'' = s' := congrArg Running.state heq
  rw [issuedWrites_concat]
  set ws := P.callWrites s calls ++ (P.writes c (P.afterCalls s calls)).take issued with hws
  rw [← List.foldl_append] at hstart
  obtain ⟨m, hfiles, hunsynced⟩ := outage_files (P := P) (P.files s) ws kept
  have hstart : P.start ((ws.take m).foldl P.write (P.files s)) = some s'' := by
    rw [← hfiles]
    exact hstart
  refine ⟨m, hstart, hunsynced, fun part hpart => ?_⟩
  have hall : ws.foldl P.write (P.files s) = P.crashed (P.afterCalls s calls) c issued :=
    crashed_afterCalls s calls c issued
  calc part (P.files s'') = part ((ws.take m).foldl P.write (P.files s)) := by
        rw [P.files_start hstart]
    _ = part ((ws.drop m).foldl P.write ((ws.take m).foldl P.write (P.files s))) :=
        (foldl_part hpart hunsynced _).symm
    _ = part (P.crashed (P.afterCalls s calls) c issued) := by
        rw [← hall, ← List.foldl_append, List.take_append_drop]

/-- An outage leaves what a crash at an earlier moment of the run would have left, and none
of the writes issued since that moment was synced.  What only synced writes change is as it
was when the power failed. -/
theorem outage_eq_crash {s₀ : σ} {incidents : List (Incident κ)}
    (hrun : P.run (P.started s₀) incidents = some p) {c : κ} {issued kept : Nat}
    (hstep : P.step p (.outage c issued kept) = some q) :
    (∃ (pre : List (Incident κ)) (c' : κ) (issued' : Nat) (calls : List κ) (r : Running σ δ ω)
        (since : List ω),
      incidents ++ [.call c] = pre ++ .call c' :: calls.map .call ∧
        P.run (P.started s₀) pre = some r ∧ P.step r (.crash c' issued') = some q ∧
        (calls = [] → issued' ≤ issued) ∧
        P.issuedWrites r.state issued (c' :: calls) =
          (P.writes c' r.state).take issued' ++ since ∧
        ∀ w ∈ since, P.sync w = false) ∧
      ∀ {τ : Type} (part : δ → τ), (∀ d w, P.sync w = false → part (P.write d w) = part d) →
        part (P.files q.state) = part (P.crashed p.state c issued) := by
  obtain ⟨pre, s, calls, rfl, hpre, hcalls⟩ := exists_epoch hrun
  obtain ⟨s', -, rfl⟩ := Option.map_eq_some_iff.mp hstep
  obtain ⟨m, hstart, hunsynced, hparts⟩ := outage_moment hcalls hstep
  obtain ⟨before, c', issued', behind, hsplit, hlast, htake, hsince⟩ :=
    take_issuedWrites (P := P) s issued m (show calls ++ [c] ≠ [] by simp)
  have hbefore : P.run (P.started s₀) (pre ++ before.map .call) =
      some ⟨P.afterCalls s before, (P.callWrites s before).foldl P.log (P.started s).disk⟩ := by
    rw [run_append, hpre, Option.bind_some, run_calls]
    rfl
  refine ⟨⟨pre ++ before.map .call, c', issued', behind, _, _, ?_, hbefore, ?_, hlast, hsince,
    hunsynced⟩, hparts⟩
  · have hmap := congrArg (List.map Incident.call) hsplit
    rw [List.map_append, List.map_append] at hmap
    rw [List.append_assoc, List.append_assoc]
    exact congrArg (pre ++ ·) hmap
  · rw [htake, crashed_afterCalls] at hstart
    rw [step, hstart]
    rfl

/-- What only synced writes change follows the writes that are issued. -/
theorem part_step {s₀ : σ} {incidents : List (Incident κ)}
    (hrun : P.run (P.started s₀) incidents = some p) {incident : Incident κ}
    (hstep : P.step p incident = some q) {τ : Type} (part : δ → τ)
    (hpart : ∀ d w, P.sync w = false → part (P.write d w) = part d) :
    part (P.files q.state) =
      part ((incident.cut (P.writes incident.of p.state)).foldl P.write (P.files p.state)) := by
  cases incident with
  | call c =>
      obtain rfl := Option.some.inj hstep
      exact congrArg part (P.files_after c p.state)
  | crash c issued =>
      obtain ⟨s, hs, rfl⟩ := Option.map_eq_some_iff.mp hstep
      exact congrArg part (P.files_start hs)
  | outage c issued kept => exact (outage_eq_crash hrun hstep).2 part hpart

/-- The disk follows what the process sees. -/
theorem foldl_tail_log (d : Disk δ ω) (ws : List ω) :
    (ws.foldl P.log d).tail.foldl P.write (ws.foldl P.log d).base =
      ws.foldl P.write (d.tail.foldl P.write d.base) := by
  induction ws generalizing d with
  | nil => rfl
  | cons w ws ih =>
      rw [List.foldl_cons, ih, List.foldl_cons, log]
      split <;> simp

/-- All writes up to a synced one are on disk. -/
theorem foldl_log_synced {ws : List ω} (hws : ∃ w ∈ ws, P.sync w = true) (d : Disk δ ω) :
    ws.foldl P.log d = ws.foldl P.log ⟨d.tail.foldl P.write d.base, []⟩ := by
  induction ws generalizing d with
  | nil => simp at hws
  | cons w ws ih =>
      rw [List.foldl_cons, List.foldl_cons]
      cases hsync : P.sync w with
      | true => simp [log, hsync]
      | false =>
          have hrest : ∃ v ∈ ws, P.sync v = true := by simpa [hsync] using hws
          rw [ih hrest, ih hrest (P.log ⟨d.tail.foldl P.write d.base, []⟩ w)]
          simp [log, hsync]

theorem foldl_tail_of_run {s₀ : σ} {incidents : List (Incident κ)}
    (hrun : P.run (P.started s₀) incidents = some p) :
    p.disk.tail.foldl P.write p.disk.base = P.files p.state := by
  obtain ⟨pre, s, calls, -, -, hcalls⟩ := exists_epoch hrun
  rw [run_calls] at hcalls
  obtain rfl := Option.some.inj hcalls
  rw [foldl_tail_log, files_afterCalls]
  rfl

/-- Once a write is synced, an outage goes back no further than to the calls since. -/
theorem outage_behind {s₀ : σ} {incidents : List (Incident κ)}
    (hrun : P.run (P.started s₀) incidents = some p) {calls : List κ}
    (hsynced : ∃ w ∈ P.callWrites p.state calls, P.sync w = true) {r : Running σ δ ω}
    (hcalls : P.run p (calls.map .call) = some r) {c : κ} {issued kept : Nat}
    (hstep : P.step r (.outage c issued kept) = some q) :
    ∃ before c' issued' behind, calls ++ [c] = before ++ c' :: behind ∧
      P.files q.state = P.crashed (P.afterCalls p.state before) c' issued' := by
  have hsame : P.run p (calls.map .call) = P.run (P.started p.state) (calls.map .call) := by
    rw [run_calls, run_calls, foldl_log_synced hsynced p.disk, foldl_tail_of_run hrun]
    rfl
  obtain ⟨s', -, rfl⟩ := Option.map_eq_some_iff.mp hstep
  obtain ⟨m, hstart, -, -⟩ := outage_moment (hsame.symm.trans hcalls) hstep
  obtain ⟨before, c', issued', behind, hsplit, -, htake, -⟩ :=
    take_issuedWrites (P := P) p.state issued m (show calls ++ [c] ≠ [] by simp)
  refine ⟨before, c', issued', behind, hsplit, (P.files_start hstart).trans ?_⟩
  rw [htake]
  exact crashed_afterCalls p.state before c' issued'

/-- Until a write is synced, an outage can undo all calls. -/
theorem outage_undoes {s₀ : σ} {incidents : List (Incident κ)}
    (hrun : P.run (P.started s₀) incidents = some p) {calls : List κ}
    (hunsynced : ∀ w ∈ P.callWrites p.state calls, P.sync w = false)
    (hcalls : P.run p (calls.map .call) = some q) (c : κ) :
    P.step q (.outage c 0 p.disk.tail.length) =
      (P.start (P.files p.state)).map P.started := by
  rw [run_calls] at hcalls
  obtain rfl := Option.some.inj hcalls
  rw [step, List.take_zero, List.foldl_nil, foldl_log_unsynced hunsynced, List.take_left,
    foldl_tail_of_run hrun]

variable (P) in
/-- What a process can come to by calls and crashes alone. -/
inductive Reachable (s₀ : σ) : σ → Prop
  | start : Reachable s₀ s₀
  | call {s : σ} (c : κ) : Reachable s₀ s → Reachable s₀ (P.after c s)
  | crash {s s' : σ} (c : κ) (issued : Nat) : Reachable s₀ s →
      P.start (P.crashed s c issued) = some s' → Reachable s₀ s'

theorem Reachable.step_crash {s₀ : σ} (h : P.Reachable s₀ p.state) {c : κ} {issued : Nat}
    (hstep : P.step p (.crash c issued) = some q) : P.Reachable s₀ q.state := by
  obtain ⟨s, hs, rfl⟩ := Option.map_eq_some_iff.mp hstep
  exact h.crash c issued hs

/-- Outages lead nowhere that crashes alone do not lead. -/
theorem reachable_of_run {s₀ : σ} {incidents : List (Incident κ)}
    (hrun : P.run (P.started s₀) incidents = some p) : P.Reachable s₀ p.state := by
  -- an outage is a crash in a run that is shorter
  induction hlength : incidents.length using Nat.strong_induction_on
    generalizing incidents p with
  | _ n ih =>
      subst hlength
      rcases incidents.eq_nil_or_concat with rfl | ⟨incidents, incident, rfl⟩
      · obtain rfl := Option.some.inj hrun
        exact .start
      · rw [List.length_concat] at ih
        rw [List.concat_eq_append] at hrun
        obtain ⟨r, hr, hstep⟩ := run_concat_eq_some.mp hrun
        have hreach : P.Reachable s₀ r.state := ih _ (Nat.lt_succ_self _) hr rfl
        cases incident with
        | call c =>
            obtain rfl := Option.some.inj hstep
            exact hreach.call c
        | crash c issued => exact hreach.step_crash hstep
        | outage c issued kept =>
            obtain ⟨⟨pre, c', issued', calls, q, since, hsplit, hpre, hcrash, -⟩, -⟩ :=
              outage_eq_crash hr hstep
            have hshort : pre.length < incidents.length + 1 := by
              have := congrArg List.length hsplit
              simp at this
              omega
            exact (ih _ hshort hpre rfl).step_crash hcrash

end Process

end WriteAhead
