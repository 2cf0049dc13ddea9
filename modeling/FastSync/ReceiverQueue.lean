import FastSync.ChunkCodec
import Mathlib.Algebra.BigOperators.Group.List.Basic

/-!
# The byte budget of the receiver's queue

A receive thread charges each whole-file payload to the session and then waits
until the queue admits it; a write thread takes files off the queue, saves and
destroys them, which gives their charge back, and only then returns their bytes
to the queue's own budget. The two threads interleave freely.
-/

set_option autoImplicit false

namespace FastSync.ReceiverQueue
open ChunkCodec (maxChunkSize maxConnectionMemory allocationSize)

def maxReceiveWholeFileSize : ℕ := 256*1024*1024
def receiverQueueMaxBytes : ℕ := maxConnectionMemory-2*maxChunkSize
def receiverQueueCapacity : ℕ := 100

def protocolReserveMemory (allocated charge : ℕ) : Option ℕ :=
  if allocated > maxConnectionMemory ∨ charge > maxConnectionMemory-allocated then none
  else some (allocated+charge)

def protocolReleaseMemory (allocated charge : ℕ) : ℕ :=
  if charge ≥ allocated then 0 else allocated-charge

inductive Received where
  | tooLarge
  | noMemory
  | payload (allocated : ℕ)

def protocolReceiveDataLimited (allocated size : ℕ) : Received :=
  if size > maxReceiveWholeFileSize then .tooLarge
  else match protocolReserveMemory allocated (allocationSize size) with
    | none => .noMemory
    | some allocated' => .payload allocated'

def receiveSequentially : List ℕ → ℕ → Bool
  | [], _ => true
  | size::sizes, allocated =>
    match protocolReceiveDataLimited allocated size with
    | .payload allocated' =>
      receiveSequentially sizes (protocolReleaseMemory allocated' (allocationSize size))
    | _ => false

inductive ReceiveThread where
  | waiting
  | holding (size : ℕ)
  | rejected
  | noMemory
deriving DecidableEq, Repr

inductive WriteThread where
  | waiting
  | saving (size : ℕ)
  | destroyed (size : ℕ)
deriving DecidableEq, Repr

structure Pipeline where
  incoming : List ℕ
  receiver : ReceiveThread
  queue : List ℕ
  writer : WriteThread
  allocated : ℕ
  queuedBytes : ℕ
deriving DecidableEq, Repr

def blockedByBudget (used size : ℕ) : Bool :=
  if used ≥ receiverQueueMaxBytes then true
  else if size > receiverQueueMaxBytes-used then decide (used ≠ 0)
  else false

def receive (s : Pipeline) : Pipeline :=
  match s.receiver, s.incoming with
  | .waiting, size::rest =>
    match protocolReceiveDataLimited s.allocated size with
    | .tooLarge => {s with receiver := .rejected}
    | .noMemory => {s with receiver := .noMemory}
    | .payload allocated => {s with incoming := rest, receiver := .holding size, allocated}
  | _, _ => s

def enqueueFile (s : Pipeline) : Pipeline :=
  match s.receiver with
  | .holding size =>
    if s.queue.length ≥ receiverQueueCapacity ∨ blockedByBudget s.queuedBytes size = true then s
    else {s with
      receiver := .waiting, queue := s.queue++[size], queuedBytes := s.queuedBytes+size}
  | _ => s

def dequeue (s : Pipeline) : Pipeline :=
  match s.writer, s.queue with
  | .waiting, size::rest => {s with writer := .saving size, queue := rest}
  | _, _ => s

def destroy (s : Pipeline) : Pipeline :=
  match s.writer with
  | .saving size => {s with
      writer := .destroyed size
      allocated := protocolReleaseMemory s.allocated (allocationSize size)}
  | _ => s

def noteBytesReleased (s : Pipeline) : Pipeline :=
  match s.writer with
  | .destroyed size => {s with
      writer := .waiting
      queuedBytes := if size ≥ s.queuedBytes then 0 else s.queuedBytes-size}
  | _ => s

inductive Action where
  | receive
  | enqueue
  | dequeue
  | destroy
  | noteReleased
deriving DecidableEq, Repr

/-- A thread that cannot move leaves the pipeline as it is. -/
def step (s : Pipeline) : Action → Pipeline
  | .receive => receive s
  | .enqueue => enqueueFile s
  | .dequeue => dequeue s
  | .destroy => destroy s
  | .noteReleased => noteBytesReleased s

def run (s : Pipeline) (schedule : List Action) : Pipeline := schedule.foldl step s

/-- The pipeline before the first frame, with what the session holds by then. -/
def start (base : ℕ) (sizes : List ℕ) : Pipeline := ⟨sizes,.waiting,[],.waiting,base,0⟩

/-- Files the queue admits one after the other while none of them is done. -/
def Admissible (window : List ℕ) : Prop :=
  ∀ before size after, window = before++size::after →
    before.length ≤ receiverQueueCapacity ∧ blockedByBudget before.sum size = false

def charge (sizes : List ℕ) : ℕ := (sizes.map allocationSize).sum

/-- The session has room for each payload next to any run of files before it that
the queue can hold at once. -/
def Roomy (base : ℕ) (sizes : List ℕ) : Prop :=
  ∀ before window size after, sizes = before++window++size::after → Admissible window →
    base+charge window+allocationSize size ≤ maxConnectionMemory

theorem charge_nil : charge [] = 0 := rfl

theorem charge_cons (size : ℕ) (sizes : List ℕ) :
    charge (size::sizes) = allocationSize size+charge sizes := by simp [charge]

theorem charge_append (xs ys : List ℕ) : charge (xs++ys) = charge xs+charge ys := by
  simp [charge]

theorem reserve_some {allocated charge : ℕ} (h : allocated+charge ≤ maxConnectionMemory) :
    protocolReserveMemory allocated charge = some (allocated+charge) := if_neg (by omega)

theorem reserve_none {allocated charge : ℕ} (h : ¬allocated+charge ≤ maxConnectionMemory) :
    protocolReserveMemory allocated charge = none := if_pos (by omega)

theorem release_eq (allocated charge : ℕ) :
    protocolReleaseMemory allocated charge = allocated-charge := by
  unfold protocolReleaseMemory
  split <;> omega

section
variable {allocated size : ℕ} (hsize : size ≤ maxReceiveWholeFileSize)
include hsize

theorem receive_payload (h : allocated+allocationSize size ≤ maxConnectionMemory) :
    protocolReceiveDataLimited allocated size = .payload (allocated+allocationSize size) := by
  rw [protocolReceiveDataLimited,if_neg (by omega),reserve_some h]

theorem receive_noMemory (h : ¬allocated+allocationSize size ≤ maxConnectionMemory) :
    protocolReceiveDataLimited allocated size = .noMemory := by
  rw [protocolReceiveDataLimited,if_neg (by omega),reserve_none h]

end

theorem receiveSequentially_iff {sizes : List ℕ} {base : ℕ}
    (hsizes : ∀ size ∈ sizes, size ≤ maxReceiveWholeFileSize) :
    receiveSequentially sizes base = true ↔
      ∀ size ∈ sizes, base+allocationSize size ≤ maxConnectionMemory := by
  induction sizes with
  | nil => simp [receiveSequentially]
  | cons size sizes ih =>
    have hi := ih fun s hs => hsizes s (by simp [hs])
    rw [List.forall_mem_cons,receiveSequentially]
    by_cases h : base+allocationSize size ≤ maxConnectionMemory
    · rw [receive_payload (hsizes size (by simp)) h]
      simp [release_eq,hi,h]
    · rw [receive_noMemory (hsizes size (by simp)) h]
      simp [h]

theorem blockedByBudget_mono {used used' size : ℕ} (hle : used ≤ used')
    (h : blockedByBudget used' size = false) : blockedByBudget used size = false := by
  unfold blockedByBudget at h ⊢
  split_ifs at h ⊢ <;> simp_all <;> omega

theorem admissible_nil : Admissible [] := by
  intro before size after h
  simp at h

variable {window : List ℕ}

theorem admissible_tail {size : ℕ} (h : Admissible (size::window)) : Admissible window := by
  intro before next after hw
  obtain ⟨hlen, hbudget⟩ := h (size::before) next after (by rw [hw]; rfl)
  rw [List.length_cons] at hlen
  exact ⟨by omega,blockedByBudget_mono (Nat.le_add_left _ _) hbudget⟩

theorem admissible_snoc {size : ℕ} :
    Admissible (window++[size]) ↔ Admissible window ∧
      window.length ≤ receiverQueueCapacity ∧ blockedByBudget window.sum size = false := by
  constructor
  · intro h
    refine ⟨fun before next after hw => h before next (after++[size]) ?_,h window size [] rfl⟩
    rw [hw]
    simp
  · rintro ⟨hw, hsize⟩ before next after h
    rcases List.eq_nil_or_concat' after with rfl | ⟨after', last, rfl⟩
    · obtain ⟨rfl, h'⟩ := List.append_inj' h rfl
      cases h'
      exact hsize
    · rw [← List.cons_append,← List.append_assoc] at h
      obtain ⟨h', -⟩ := List.append_inj' h rfl
      exact hw before next after' h'

def held (s : Pipeline) : List ℕ :=
  match s.receiver with
  | .holding size => [size]
  | _ => []

def pending (s : Pipeline) : List ℕ :=
  match s.writer with
  | .waiting => s.queue
  | .saving size => size::s.queue
  | .destroyed size => size::s.queue

def live (s : Pipeline) : List ℕ :=
  match s.writer with
  | .saving size => size::s.queue
  | _ => s.queue

structure Accounted (base : ℕ) (sizes : List ℕ) (s : Pipeline) : Prop where
  order : ∃ done, sizes = done++pending s++held s++s.incoming
  admissible : Admissible (pending s)
  queued : s.queuedBytes = (pending s).sum
  charged : s.allocated = base+charge (live s)+charge (held s)
  memory : s.receiver ≠ .noMemory

theorem live_suffix {s : Pipeline} : ∃ done, pending s = done++live s := by
  unfold pending live
  cases s.writer with
  | waiting | saving size => exact ⟨[],rfl⟩
  | destroyed size => exact ⟨[size],rfl⟩

theorem admissible_suffix {before : List ℕ} (h : Admissible (before++window)) :
    Admissible window := by
  induction before with
  | nil => exact h
  | cons size before ih => exact ih (admissible_tail h)

variable {base : ℕ} {sizes : List ℕ} {s : Pipeline}

theorem accounted_start (base : ℕ) (sizes : List ℕ) : Accounted base sizes (start base sizes) :=
  ⟨⟨[],rfl⟩,admissible_nil,rfl,rfl,by simp [start]⟩

theorem accounted_receive (hsizes : ∀ size ∈ sizes, size ≤ maxReceiveWholeFileSize)
    (hroomy : Roomy base sizes) (h : Accounted base sizes s) :
    Accounted base sizes (receive s) := by
  unfold receive
  split
  · rename_i size rest hr hi
    obtain ⟨done, hdone⟩ := h.order
    obtain ⟨old, hold⟩ := live_suffix
    have hheld : held s = [] := by simp [held,hr]
    have hcharged := h.charged
    rw [hheld] at hdone hcharged
    rw [hi] at hdone
    have hsplit : sizes = (done++old)++live s++size::rest := by
      rw [hdone,hold]
      simp
    have hadm : Admissible (live s) := admissible_suffix (hold ▸ h.admissible)
    have hin : s.allocated+allocationSize size ≤ maxConnectionMemory := by
      rw [hcharged]
      exact hroomy _ _ _ _ hsplit hadm
    rw [receive_payload (hsizes size (by rw [hsplit]; simp)) hin]
    refine ⟨⟨done,?_⟩,h.admissible,h.queued,?_,by simp⟩
    · rw [hdone]
      simp [pending,held]
    · rw [hcharged]
      simp [live,held,charge]
  · exact h

theorem pending_length (s : Pipeline) : (pending s).length ≤ s.queue.length+1 := by
  unfold pending
  cases s.writer <;> simp

section
variable (h : Accounted base sizes s)
include h

theorem accounted_enqueue : Accounted base sizes (enqueueFile s) := by
  unfold enqueueFile
  split
  · rename_i size hr
    split
    · exact h
    · rename_i hfree
      rw [not_or,Bool.not_eq_true,h.queued] at hfree
      obtain ⟨done, hdone⟩ := h.order
      have hlen := pending_length s
      have hadm : Admissible (pending s++[size]) :=
        admissible_snoc.mpr ⟨h.admissible,by omega,hfree.2⟩
      have hheld : held s = [size] := by simp [held,hr]
      have hcharged := h.charged
      rw [hheld] at hdone hcharged
      have hpending : ∀ t : Pipeline, t.writer = s.writer → t.queue = s.queue++[size] →
          pending t = pending s++[size] ∧ live t = live s++[size] := by
        intro t hw hq
        unfold pending live
        rw [hw,hq]
        cases s.writer <;> simp
      obtain ⟨hp, hl⟩ := hpending {s with
        receiver := .waiting, queue := s.queue++[size], queuedBytes := s.queuedBytes+size} rfl rfl
      refine ⟨⟨done,?_⟩,by rwa [hp],?_,?_,by simp⟩
      · rw [hdone,hp]
        simp [held]
      · rw [hp,List.sum_append,← h.queued]
        simp
      · rw [hl,charge_append,hcharged]
        simp [held,charge,Nat.add_assoc]
  · exact h

theorem accounted_dequeue : Accounted base sizes (dequeue s) := by
  unfold dequeue
  split
  · rename_i size rest hw hq
    have hp : pending s = size::rest := by simp [pending,hw,hq]
    have hl : live s = size::rest := by simp [live,hw,hq]
    have h' := h
    obtain ⟨horder, hadm, hqueued, hcharged, hmem⟩ := h'
    rw [hp] at horder hadm hqueued
    rw [hl] at hcharged
    exact ⟨horder,hadm,hqueued,hcharged,hmem⟩
  · exact h

theorem accounted_destroy : Accounted base sizes (destroy s) := by
  unfold destroy
  split
  · rename_i size hw
    have hp : pending s = size::s.queue := by simp [pending,hw]
    have hl : live s = size::s.queue := by simp [live,hw]
    obtain ⟨horder, hadm, hqueued, hcharged, hmem⟩ := h
    rw [hp] at horder hadm hqueued
    rw [hl,charge_cons] at hcharged
    refine ⟨horder,hadm,hqueued,?_,hmem⟩
    change protocolReleaseMemory s.allocated (allocationSize size) =
      base+charge s.queue+charge (held s)
    rw [release_eq,hcharged]
    omega
  · exact h

theorem accounted_noteReleased : Accounted base sizes (noteBytesReleased s) := by
  unfold noteBytesReleased
  split
  · rename_i size hw
    have hp : pending s = size::s.queue := by simp [pending,hw]
    have hl : live s = s.queue := by simp [live,hw]
    obtain ⟨⟨done, hdone⟩, hadm, hqueued, hcharged, hmem⟩ := h
    rw [hp] at hdone hadm hqueued
    rw [hl] at hcharged
    rw [List.sum_cons] at hqueued
    refine ⟨⟨done++[size],?_⟩,admissible_tail hadm,?_,hcharged,hmem⟩
    · rw [hdone]
      simp [pending,held]
    · change (if size ≥ s.queuedBytes then 0 else s.queuedBytes-size) = s.queue.sum
      split <;> omega
  · exact h

end

section
variable (hsizes : ∀ size ∈ sizes, size ≤ maxReceiveWholeFileSize) (hroomy : Roomy base sizes)
  (h : Accounted base sizes s)
include hsizes hroomy h

theorem accounted_step {action : Action} : Accounted base sizes (step s action) := by
  cases action with
  | receive => exact accounted_receive hsizes hroomy h
  | enqueue => exact accounted_enqueue h
  | dequeue => exact accounted_dequeue h
  | destroy => exact accounted_destroy h
  | noteReleased => exact accounted_noteReleased h

theorem accounted_run {schedule : List Action} : Accounted base sizes (run s schedule) := by
  induction schedule generalizing s with
  | nil => exact h
  | cons action schedule ih => exact ih (accounted_step hsizes hroomy h)

end

/-- The pipeline after the files of a window were queued behind a writer that is
still busy with the first of them. -/
def filled (base : ℕ) (window incoming : List ℕ) : Pipeline :=
  ⟨incoming,.waiting,window.tail,(match window with
    | [] => .waiting
    | size::_ => .saving size),base+charge window,window.sum⟩

theorem run_append (s : Pipeline) (xs ys : List Action) : run s (xs++ys) = run (run s xs) ys :=
  List.foldl_append

theorem blockedByBudget_zero (size : ℕ) : blockedByBudget 0 size = false := by
  rw [blockedByBudget,if_neg (by decide)]
  simp

theorem run_drain {base size : ℕ} {rest : List ℕ} (hsize : size ≤ maxReceiveWholeFileSize)
    (hroom : base+allocationSize size ≤ maxConnectionMemory) :
    run (start base (size::rest)) [.receive, .enqueue, .dequeue, .destroy, .noteReleased] =
      start base rest := by
  simp [run,step,start,receive,receive_payload hsize hroom,enqueueFile,
    blockedByBudget_zero,receiverQueueCapacity,dequeue,destroy,noteBytesReleased,release_eq]

theorem run_drain_all {base : ℕ} {before rest : List ℕ}
    (hsizes : ∀ size ∈ before, size ≤ maxReceiveWholeFileSize)
    (hroom : ∀ size ∈ before, base+allocationSize size ≤ maxConnectionMemory) :
    ∃ schedule, run (start base (before++rest)) schedule = start base rest := by
  induction before with
  | nil => exact ⟨[],rfl⟩
  | cons size before ih =>
    obtain ⟨hs, hsizes'⟩ := List.forall_mem_cons.mp hsizes
    obtain ⟨hr, hroom'⟩ := List.forall_mem_cons.mp hroom
    obtain ⟨schedule, hschedule⟩ := ih hsizes' hroom'
    refine ⟨[.receive, .enqueue, .dequeue, .destroy, .noteReleased]++schedule,?_⟩
    rw [run_append,List.cons_append,run_drain hs hr,hschedule]

theorem run_fill {base size : ℕ} {window rest : List ℕ} (hsize : size ≤ maxReceiveWholeFileSize)
    (hadm : Admissible (window++[size]))
    (hroom : base+charge window+allocationSize size ≤ maxConnectionMemory) :
    run (filled base window (size::rest)) [.receive, .enqueue, .dequeue] =
      filled base (window++[size]) rest := by
  have hreceive := receive_payload hsize hroom
  obtain ⟨-, hlen, hbudget⟩ := admissible_snoc.mp hadm
  cases window with
  | nil =>
    rw [charge_nil,Nat.add_zero] at hreceive
    simp [run,step,filled,receive,hreceive,enqueueFile,blockedByBudget_zero,
      receiverQueueCapacity,dequeue,charge_nil,charge_cons]
  | cons first window =>
    rw [List.length_cons] at hlen
    have hfull : ¬window.length ≥ receiverQueueCapacity := by omega
    rw [List.sum_cons] at hbudget
    simp only [charge_cons,Nat.add_assoc] at hreceive
    simp [run,step,filled,receive,hreceive,enqueueFile,hbudget,hfull,dequeue,charge_nil,
      charge_cons,charge_append,Nat.add_assoc]

/-- If no schedule runs out of memory, each admissible window can be built up
behind a writer that does not finish. -/
theorem run_fill_all {base : ℕ} (window rest : List ℕ)
    (hsizes : ∀ size ∈ window, size ≤ maxReceiveWholeFileSize) (hadm : Admissible window)
    (hnever : ∀ schedule, (run (start base (window++rest)) schedule).receiver ≠ .noMemory) :
    ∃ schedule, run (start base (window++rest)) schedule = filled base window rest := by
  induction window using List.reverseRecOn generalizing rest with
  | nil => exact ⟨[],rfl⟩
  | append_singleton window size ih =>
    rw [List.append_assoc] at hnever ⊢
    obtain ⟨schedule, hschedule⟩ := ih (size::rest) (fun s hs => hsizes s (by simp [hs]))
      (admissible_snoc.mp hadm).1 hnever
    have hsize := hsizes size (by simp)
    have hroom : base+charge window+allocationSize size ≤ maxConnectionMemory := by
      by_contra hfull
      apply hnever (schedule++[.receive])
      have hreceive := receive_noMemory hsize hfull
      simp only [run_append,List.singleton_append,hschedule]
      simp [run,step,filled,receive,hreceive]
    refine ⟨schedule++[.receive, .enqueue, .dequeue],?_⟩
    rw [run_append,List.singleton_append,hschedule,
      run_fill hsize hadm hroom]

/-- Over all interleavings of the two threads, no payload is refused for memory
exactly when the session has room for each one beside every run of earlier files
the queue may hold. The queue's budget alone does not give this. -/
theorem pipelined_receives_iff (base : ℕ) (sizes : List ℕ)
    (hsizes : ∀ size ∈ sizes, size ≤ maxReceiveWholeFileSize)
    (hsequential : receiveSequentially sizes base = true) :
    (∀ schedule, (run (start base sizes) schedule).receiver ≠ .noMemory) ↔ Roomy base sizes := by
  constructor
  · intro hnever before window size after hsplit hadm
    rw [receiveSequentially_iff hsizes] at hsequential
    have hbefore : ∀ s ∈ before, s ∈ sizes := fun s hs => by rw [hsplit]; simp [hs]
    rw [List.append_assoc] at hsplit
    obtain ⟨drain, hdrain⟩ := run_drain_all
      (fun s hs => hsizes s (hbefore s hs)) (fun s hs => hsequential s (hbefore s hs))
    rw [← hsplit] at hdrain
    have hnever' : ∀ schedule,
        (run (start base (window++size::after)) schedule).receiver ≠ .noMemory := by
      intro schedule
      rw [← hdrain,← run_append]
      exact hnever _
    obtain ⟨fill, hfill⟩ := run_fill_all window (size::after)
      (fun s hs => hsizes s (by rw [hsplit]; simp [hs])) hadm hnever'
    by_contra hfull
    apply hnever' (fill++[.receive])
    have hreceive := receive_noMemory
      (hsizes size (by rw [hsplit]; simp)) hfull
    rw [run_append,hfill]
    simp [run,step,filled,receive,hreceive]
  · intro hroomy schedule
    exact (accounted_run hsizes hroomy (accounted_start base sizes)).memory

theorem pipelined_receive_fails :
    let sizes := [200*1024*1024, 200*1024*1024]
    receiveSequentially sizes 0 = true ∧
      (run (start 0 sizes) [.receive, .enqueue, .receive]).receiver = .noMemory := by
  decide

theorem pipelined_receives_single :
    Roomy 0 [200*1024*1024] ∧
      ∀ schedule, (run (start 0 [200*1024*1024]) schedule).receiver ≠ .noMemory := by
  have hroomy : Roomy 0 [200*1024*1024] := by
    intro before window size after h _
    have hlen := congrArg List.length h
    simp only [List.length_append,List.length_cons,List.length_nil] at hlen
    obtain rfl : before = [] := List.length_eq_zero_iff.mp (by omega)
    obtain rfl : window = [] := List.length_eq_zero_iff.mp (by omega)
    cases h
    decide
  exact ⟨hroomy,(pipelined_receives_iff 0 _ (by decide) (by decide)).mpr hroomy⟩

end FastSync.ReceiverQueue
