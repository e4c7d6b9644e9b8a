/-
The buffer pool.  It keeps cleared buffers of at least the default capacity, up to a
maximal number, and hands out the one released last.  Users may have filled, grown or cut
a buffer before they release it.  What is handed out never shows what was in it before, and
as long as the pool is large enough for all buffers in use at a time, no more are allocated
than were ever in use at once.
-/
import Seshat.Lib.Bytes
import Mathlib.Order.MinMax

namespace Seshat

/-- A `BytesMut`: its bytes, and how many it has room for. -/
structure BytesMut where
  bytes : Bytes
  capacity : Nat
  fits : bytes.length ≤ capacity

namespace BytesMut

def withCapacity (capacity : Nat) : BytesMut := ⟨[], capacity, Nat.zero_le capacity⟩

/-- The room is kept. -/
def clear (buf : BytesMut) : BytesMut := ⟨[], buf.capacity, Nat.zero_le buf.capacity⟩

end BytesMut

def defaultBufferCapacity : Nat := 4096
def defaultMaxPoolSize : Nat := 100

/-- The last buffer of the vector comes first.  Every buffer in the pool is cleared and
large enough, and there are not too many of them. -/
structure BufferPool where
  buffers : List BytesMut
  defaultCapacity : Nat
  maxPoolSize : Nat
  cleared : ∀ buf ∈ buffers, buf.bytes = [] ∧ defaultCapacity ≤ buf.capacity
  bounded : buffers.length ≤ maxPoolSize

namespace BufferPool

def withCapacity (defaultCapacity maxPoolSize : Nat) : BufferPool :=
  ⟨[], defaultCapacity, maxPoolSize, by simp, Nat.zero_le maxPoolSize⟩

def new (defaultCapacity : Nat) : BufferPool :=
  withCapacity defaultCapacity defaultMaxPoolSize

def default : BufferPool := new defaultBufferCapacity

def acquire (pool : BufferPool) : BytesMut × BufferPool :=
  match hbuffers : pool.buffers with
  | [] => (.withCapacity pool.defaultCapacity, pool)
  | buf :: buffers =>
      (buf, { pool with
        buffers
        cleared := fun other hother => pool.cleared other (by simp [hbuffers, hother])
        bounded := by
          have hbounded := pool.bounded
          rw [hbuffers, List.length_cons] at hbounded
          omega })

def release (pool : BufferPool) (buf : BytesMut) : BufferPool :=
  if hcapacity : buf.capacity < pool.defaultCapacity then pool
  else if hfull : pool.maxPoolSize ≤ pool.buffers.length then pool
  else
    { pool with
      buffers := buf.clear :: pool.buffers
      cleared := List.forall_mem_cons.mpr ⟨⟨rfl, not_lt.mp hcapacity⟩, pool.cleared⟩
      bounded := not_le.mp hfull }

end BufferPool

/-- What the users of a pool call; a buffer comes back in any state. -/
inductive PoolCall where
  | acquire
  | release (buf : BytesMut)

/-- A pool over a run: the buffers it handed out, and how many of these were new. -/
structure PoolRun where
  pool : BufferPool
  acquired : List BytesMut
  allocated : Nat

namespace PoolRun

def step (r : PoolRun) : PoolCall → PoolRun
  | .acquire =>
      { pool := r.pool.acquire.2
        acquired := r.acquired ++ [r.pool.acquire.1]
        allocated := if r.pool.buffers = [] then r.allocated + 1 else r.allocated }
  | .release buf => { r with pool := r.pool.release buf }

def run (r : PoolRun) (calls : List PoolCall) : PoolRun :=
  calls.foldl step r

end PoolRun

/-- No more buffers come back than were handed out, given those in use. -/
def Balanced : Nat → List PoolCall → Prop
  | _, [] => True
  | inUse, .acquire :: calls => Balanced (inUse + 1) calls
  | inUse, .release _ :: calls => 0 < inUse ∧ Balanced (inUse - 1) calls

/-- The most buffers in use at a time. -/
def peakUse : Nat → List PoolCall → Nat
  | inUse, [] => inUse
  | inUse, .acquire :: calls => max inUse (peakUse (inUse + 1) calls)
  | inUse, .release _ :: calls => max inUse (peakUse (inUse - 1) calls)

/-- The buffers that come back are as large as new ones. -/
def ReturnsWhole (defaultCapacity : Nat) (calls : List PoolCall) : Prop :=
  ∀ buf, .release buf ∈ calls → defaultCapacity ≤ buf.capacity

theorem le_peakUse (inUse : Nat) (calls : List PoolCall) : inUse ≤ peakUse inUse calls := by
  cases calls with
  | nil => exact le_refl inUse
  | cons c calls => cases c <;> exact le_max_left _ _

namespace BufferPool

theorem acquire_nil {pool : BufferPool} (h : pool.buffers = []) :
    pool.acquire = (.withCapacity pool.defaultCapacity, pool) := by
  rw [acquire]
  split
  · rfl
  · rename_i heq
    rw [h] at heq
    contradiction

theorem acquire_cons {pool : BufferPool} {buf : BytesMut} {buffers : List BytesMut}
    (h : pool.buffers = buf :: buffers) :
    ∃ pool' : BufferPool, pool.acquire = (buf, pool') ∧ pool'.buffers = buffers ∧
      pool'.defaultCapacity = pool.defaultCapacity ∧ pool'.maxPoolSize = pool.maxPoolSize := by
  rw [acquire]
  split
  · rename_i heq
    rw [h] at heq
    contradiction
  · rename_i buf' buffers' heq
    obtain ⟨rfl, rfl⟩ := List.cons.inj (heq.symm.trans h)
    exact ⟨_, rfl, rfl, rfl, rfl⟩

/-- Whatever the pool went through, what it hands out is empty and large enough. -/
theorem acquire_cleared (pool : BufferPool) :
    pool.acquire.1.bytes = [] ∧ pool.defaultCapacity ≤ pool.acquire.1.capacity := by
  cases hbuffers : pool.buffers with
  | nil =>
      rw [acquire_nil hbuffers]
      exact ⟨rfl, le_refl _⟩
  | cons buf buffers =>
      obtain ⟨pool', hacquire, -⟩ := acquire_cons hbuffers
      rw [hacquire]
      exact pool.cleared buf (by simp [hbuffers])

theorem settings_acquire (pool : BufferPool) :
    pool.acquire.2.defaultCapacity = pool.defaultCapacity ∧
      pool.acquire.2.maxPoolSize = pool.maxPoolSize := by
  cases hbuffers : pool.buffers with
  | nil =>
      rw [acquire_nil hbuffers]
      exact ⟨rfl, rfl⟩
  | cons buf buffers =>
      obtain ⟨pool', hacquire, -, hcapacity, hsize⟩ := acquire_cons hbuffers
      rw [hacquire]
      exact ⟨hcapacity, hsize⟩

theorem settings_release (pool : BufferPool) (buf : BytesMut) :
    (pool.release buf).defaultCapacity = pool.defaultCapacity ∧
      (pool.release buf).maxPoolSize = pool.maxPoolSize := by
  rw [release]
  split
  · exact ⟨rfl, rfl⟩
  · split <;> exact ⟨rfl, rfl⟩

/-- A buffer that is large enough is taken back while there is room. -/
theorem length_release {pool : BufferPool} {buf : BytesMut}
    (hcapacity : pool.defaultCapacity ≤ buf.capacity)
    (hroom : pool.buffers.length < pool.maxPoolSize) :
    (pool.release buf).buffers.length = pool.buffers.length + 1 := by
  rw [release, dif_neg (not_lt.mpr hcapacity), dif_neg (not_le.mpr hroom)]
  rfl

end BufferPool

namespace PoolRun

/-- All buffers handed out so far were empty and large enough. -/
theorem acquired_cleared {r : PoolRun} {capacity : Nat}
    (hcapacity : r.pool.defaultCapacity = capacity)
    (h : ∀ buf ∈ r.acquired, buf.bytes = [] ∧ capacity ≤ buf.capacity)
    (calls : List PoolCall) :
    ∀ buf ∈ (r.run calls).acquired, buf.bytes = [] ∧ capacity ≤ buf.capacity := by
  induction calls generalizing r with
  | nil => exact h
  | cons c calls ih =>
      cases c with
      | acquire =>
          refine ih (r.pool.settings_acquire.1.trans hcapacity) ?_
          intro buf hbuf
          rcases List.mem_append.mp hbuf with hbuf | hbuf
          · exact h buf hbuf
          · obtain rfl := List.mem_singleton.mp hbuf
            rw [← hcapacity]
            exact r.pool.acquire_cleared
      | release buf => exact ih ((r.pool.settings_release buf).1.trans hcapacity) h

theorem maxPoolSize_run (r : PoolRun) (calls : List PoolCall) :
    (r.run calls).pool.maxPoolSize = r.pool.maxPoolSize := by
  induction calls generalizing r with
  | nil => rfl
  | cons c calls ih =>
      refine (ih _).trans ?_
      cases c with
      | acquire => exact r.pool.settings_acquire.2
      | release buf => exact (r.pool.settings_release buf).2

/-- With nothing dropped, the buffers there are, pooled and in use, grow exactly to the
peak. -/
theorem allocated_run {r : PoolRun} {inUse : Nat} {calls : List PoolCall}
    (hbalanced : Balanced inUse calls) (hwhole : ReturnsWhole r.pool.defaultCapacity calls)
    (hroom : r.pool.buffers.length + inUse ≤ r.pool.maxPoolSize)
    (hpeak : peakUse inUse calls ≤ r.pool.maxPoolSize) :
    (r.run calls).allocated + (r.pool.buffers.length + inUse) =
      r.allocated + max (r.pool.buffers.length + inUse) (peakUse inUse calls) := by
  induction calls generalizing r inUse with
  | nil =>
      have hmax : max (r.pool.buffers.length + inUse) inUse = r.pool.buffers.length + inUse :=
        max_eq_left (Nat.le_add_left _ _)
      rw [peakUse, hmax]
      rfl
  | cons c calls ih =>
      cases c with
      | acquire =>
          have hsettings := r.pool.settings_acquire
          have hrest : ReturnsWhole (r.step .acquire).pool.defaultCapacity calls := by
            intro buf hbuf
            rw [show (r.step .acquire).pool.defaultCapacity = _ from hsettings.1]
            exact hwhole buf (List.mem_cons_of_mem _ hbuf)
          have hlevel := le_peakUse (inUse + 1) calls
          rw [peakUse] at hpeak ⊢
          have hnext := ih (r := r.step .acquire) hbalanced hrest
          rw [show (r.step .acquire).pool.maxPoolSize = _ from hsettings.2] at hnext
          cases hbuffers : r.pool.buffers with
          | nil =>
              have hempty : (r.step .acquire).pool.buffers = [] := by
                simp only [step, BufferPool.acquire_nil hbuffers, hbuffers]
              have hallocated : (r.step .acquire).allocated = r.allocated + 1 := by
                simp only [step, hbuffers, ↓reduceIte]
              rw [hempty, hallocated] at hnext
              simp only [hbuffers, List.length_nil] at hroom hnext ⊢
              have hrun := hnext (by omega) (by omega)
              rw [run, List.foldl_cons, ← run]
              omega
          | cons buf buffers =>
              obtain ⟨pool', hacquire, hpool', -⟩ := BufferPool.acquire_cons hbuffers
              have hleft : (r.step .acquire).pool.buffers = buffers := by
                simp only [step, hacquire, hpool']
              have hallocated : (r.step .acquire).allocated = r.allocated := by
                simp [step, hbuffers]
              rw [hleft, hallocated] at hnext
              simp only [hbuffers, List.length_cons] at hroom hnext ⊢
              have hrun := hnext (by omega) (by omega)
              rw [run, List.foldl_cons, ← run]
              omega
      | release buf =>
          obtain ⟨hused, hbalanced⟩ := hbalanced
          have hsettings := r.pool.settings_release buf
          have hrest : ReturnsWhole (r.step (.release buf)).pool.defaultCapacity calls := by
            intro other hother
            rw [show (r.step (.release buf)).pool.defaultCapacity = _ from hsettings.1]
            exact hwhole other (List.mem_cons_of_mem _ hother)
          have hlength : (r.step (.release buf)).pool.buffers.length =
              r.pool.buffers.length + 1 :=
            BufferPool.length_release (hwhole buf List.mem_cons_self) (by omega)
          have hlevel := le_peakUse (inUse - 1) calls
          rw [peakUse] at hpeak ⊢
          have hnext := ih (r := r.step (.release buf)) hbalanced hrest
          rw [show (r.step (.release buf)).pool.maxPoolSize = _ from hsettings.2, hlength,
            show (r.step (.release buf)).allocated = r.allocated from rfl] at hnext
          have hrun := hnext (by omega) (by omega)
          rw [run, List.foldl_cons, ← run]
          omega

end PoolRun

/-- In every run of a pool, whatever is released, all buffers handed out are empty and of
the default capacity at least, and the pool keeps its bound.  Where users give back only
buffers they were given, none of them cut short, and the pool may hold as many as are in use
at a time, the buffers allocated are as many as were in use at the peak. -/
theorem pool_allocates_peak (defaultCapacity maxPoolSize : Nat) (calls : List PoolCall) :
    let r := PoolRun.run ⟨.withCapacity defaultCapacity maxPoolSize, [], 0⟩ calls
    (∀ buf ∈ r.acquired, buf.bytes = [] ∧ defaultCapacity ≤ buf.capacity) ∧
      r.pool.buffers.length ≤ maxPoolSize ∧
      (Balanced 0 calls → ReturnsWhole defaultCapacity calls →
        peakUse 0 calls ≤ maxPoolSize → r.allocated = peakUse 0 calls) := by
  intro r
  refine ⟨PoolRun.acquired_cleared rfl (by simp) calls, ?_, ?_⟩
  · have hbounded := r.pool.bounded
    rw [PoolRun.maxPoolSize_run] at hbounded
    exact hbounded
  · intro hbalanced hwhole hpeak
    have hrun := PoolRun.allocated_run
      (r := ⟨.withCapacity defaultCapacity maxPoolSize, [], 0⟩) hbalanced hwhole
      (Nat.zero_le maxPoolSize) hpeak
    rw [show BufferPool.buffers _ = [] from rfl, List.length_nil, Nat.add_zero, Nat.add_zero,
      Nat.zero_add, Nat.zero_max] at hrun
    exact hrun

namespace Witness

/-- Two buffers in use, one of them given back full and taken again. -/
def poolCalls : List PoolCall :=
  [.acquire, .acquire, .release ⟨List.replicate 16 7, 16, by simp⟩, .acquire]

theorem poolCalls_allocate_two :
    (∀ buf ∈ (PoolRun.run ⟨.withCapacity 16 2, [], 0⟩ poolCalls).acquired, buf.bytes = []) ∧
      (PoolRun.run ⟨.withCapacity 16 2, [], 0⟩ poolCalls).allocated = 2 := by
  obtain ⟨hcleared, -, hallocated⟩ := pool_allocates_peak 16 2 poolCalls
  refine ⟨fun buf hbuf => (hcleared buf hbuf).1, hallocated ?_ ?_ (le_refl 2)⟩
  · exact ⟨Nat.two_pos, trivial⟩
  · intro buf hbuf
    simp only [poolCalls, List.mem_cons, reduceCtorEq, PoolCall.release.injEq, false_or,
      List.not_mem_nil, or_false] at hbuf
    rw [hbuf]

end Witness

end Seshat
