import FastSync.ReceiverPipeline
import Mathlib.Algebra.Order.BigOperators.Group.List

/-!
# Files through the receiver's pipeline

Every received file is in one place at any time, and they stay in order. The queued
bytes are those of the files queued or being written. A sleeping thread has a reason
to sleep that the other thread will end, so that a fair run lets both return.
-/

set_option autoImplicit false

namespace FastSync.ReceiverDelivery
open RingQueue Threads ReceiverPipeline

def receiverOk : ReceiveThread → Bool
  | .failing => false
  | .returned ok => ok
  | _ => true

def writerOk : WriteThread → Bool
  | .releasing _ ok => ok
  | .failing => false
  | .returned ok => ok
  | _ => true

theorem held_values : held .receiving = [] ∧ (∀ f, held (.offering f) = [f]) ∧
    (∀ f signalled, held (.asleep f signalled) = [f]) ∧ held .finishing = [] ∧
    held .failing = [] ∧ ∀ ok, held (.returned ok) = [] :=
  ⟨rfl,fun _ => rfl,fun _ _ => rfl,rfl,rfl,fun _ => rfl⟩

theorem inHand_values : inHand .starting = [] ∧ inHand .fetching = [] ∧
    (∀ signalled, inHand (.asleep signalled) = []) ∧ (∀ f, inHand (.writing f) = [f]) ∧
    (∀ f ok, inHand (.releasing f ok) = []) ∧ inHand .failing = [] ∧
    ∀ ok, inHand (.returned ok) = [] :=
  ⟨rfl,rfl,fun _ => rfl,fun _ => rfl,fun _ _ => rfl,rfl,fun _ => rfl⟩

/-! ## Signals change nothing but who sleeps -/

section
variable {thread : ReceiveThread}

@[simp] theorem held_signalNotFull : held (signalNotFull thread) = held thread := by
  cases thread <;> rfl

@[simp] theorem receiverOk_signalNotFull :
    receiverOk (signalNotFull thread) = receiverOk thread := by
  cases thread <;> rfl

@[simp] theorem signalNotFull_asleep {f : File} : signalNotFull thread ≠ .asleep f false := by
  cases thread <;> simp [signalNotFull]

@[simp] theorem signalNotFull_returned {ok : Bool} :
    signalNotFull thread = .returned ok ↔ thread = .returned ok := by
  cases thread <;> simp [signalNotFull]

@[simp] theorem signalNotFull_finishing :
    signalNotFull thread = .finishing ↔ thread = .finishing := by
  cases thread <;> simp [signalNotFull]

end

section
variable {thread : WriteThread}

@[simp] theorem inHand_signalNotEmpty : inHand (signalNotEmpty thread) = inHand thread := by
  cases thread <;> rfl

@[simp] theorem unreleased_signalNotEmpty :
    unreleased (signalNotEmpty thread) = unreleased thread := by
  cases thread <;> rfl

@[simp] theorem writerOk_signalNotEmpty : writerOk (signalNotEmpty thread) = writerOk thread := by
  cases thread <;> rfl

@[simp] theorem signalNotEmpty_asleep : signalNotEmpty thread ≠ .asleep false := by
  cases thread <;> simp [signalNotEmpty]

@[simp] theorem signalNotEmpty_returned {ok : Bool} :
    signalNotEmpty thread = .returned ok ↔ thread = .returned ok := by
  cases thread <;> simp [signalNotEmpty]

end

variable {f : File}

theorem offers_held {thread : ReceiveThread} (h : Offers thread f) :
    held thread = [f] ∧ receiverOk thread = true := by
  rcases h with rfl | ⟨signalled,rfl⟩ <;> exact ⟨rfl,rfl⟩

variable {thread : WriteThread}

theorem fetches_inHand (h : Fetches thread) :
    inHand thread = [] ∧ unreleased thread = [] ∧ writerOk thread = true := by
  rcases h with rfl | ⟨signalled,rfl⟩ <;> exact ⟨rfl,rfl,rfl⟩

/-! ## One place, one order -/

/-- What the receive thread has offered, holds and has yet to receive is the stream. -/
structure Fed (files : List File) (s : Pipeline) : Prop where
  split : receiverOk s.receiver = true → files = s.enqueued++held s.receiver++s.incoming
  drained : s.receiver = .finishing ∨ s.receiver = .returned true → s.incoming = []
  accepted : s.enqueued <+: files

variable {files : List File} {s t : Pipeline}

theorem fed_writer (hs : Fed files s)
    (hr : t.receiver = s.receiver ∨ t.receiver = signalNotFull s.receiver)
    (he : t.enqueued = s.enqueued) (hi : t.incoming = s.incoming) : Fed files t := by
  have hreceiver : receiverOk t.receiver = receiverOk s.receiver ∧
      held t.receiver = held s.receiver ∧
      (t.receiver = .finishing ∨ t.receiver = .returned true ↔
        s.receiver = .finishing ∨ s.receiver = .returned true) := by
    apply hr.elim <;> (intro hr; rw [hr]; simp)
  apply Fed.mk
  · rw [hreceiver.1,hreceiver.2.1,he,hi]
    exact hs.split
  · rw [hreceiver.2.2,hi]
    exact hs.drained
  · rw [he]
    exact hs.accepted

theorem fed_receiver (hs : Fed files s)
    (hsplit : receiverOk t.receiver = true → files = t.enqueued++held t.receiver++t.incoming)
    (he : t.enqueued = s.enqueued ∨ t.enqueued <+: files)
    (hr : t.receiver ≠ .finishing ∧ t.receiver ≠ .returned true) : Fed files t where
  split := hsplit
  drained := fun h => (h.elim hr.1 hr.2).elim
  accepted := he.elim (fun he => he ▸ hs.accepted) id

variable {limit : UInt64}

theorem fed_change (h : Change limit s t) (hs : Fed files s) : Fed files t := by
  cases h with
  | idle => exact hs
  | receives f rest hr hi =>
    have hsplit := hs.split (by rw [hr]; rfl)
    rw [hi,hr] at hsplit
    exact fed_receiver hs (fun _ => by simpa [held_values] using hsplit) (.inl rfl) (by simp)
  | ends thread hr hi ht =>
    have hsplit := hs.split (by rw [hr]; rfl)
    rw [hr] at hsplit
    have hheld : held thread = [] := by
      rcases ht with rfl | rfl <;> rfl
    exact ⟨fun _ => by rw [hheld]; exact hsplit,fun _ => hi,hs.accepted⟩
  | rejects f hr _ => exact fed_receiver hs Bool.noConfusion (.inl rfl) (by simp [rejectFile])
  | waits f hr _ _ =>
    have hsplit := hs.split (offers_held hr).2
    rw [(offers_held hr).1] at hsplit
    exact fed_receiver hs (fun _ => hsplit) (.inl rfl) (by simp)
  | enqueues f queue hr _ _ _ =>
    have hsplit := hs.split (offers_held hr).2
    rw [(offers_held hr).1] at hsplit
    exact fed_receiver hs (fun _ => by simpa [held_values] using hsplit)
      (.inr ⟨s.incoming,hsplit.symm⟩) (by simp)
  | finishes hr =>
    have hsplit := hs.split (by rw [hr]; rfl)
    rw [hr] at hsplit
    exact ⟨fun _ => hsplit,fun _ => hs.drained (.inl hr),hs.accepted⟩
  | fails hr => exact fed_receiver hs Bool.noConfusion (.inl rfl) (by simp [receiverThreadFail])
  | dequeues _ _ _ _ _ | releases _ _ _ | gives_up _ => exact fed_writer hs (.inr rfl) rfl rfl
  | _ => exact fed_writer hs (.inl rfl) rfl rfl

/-- What was accepted is saved, in hand or queued, unless the write thread lost it. -/
structure Served (s : Pipeline) : Prop where
  split : ∃ lost, s.enqueued = s.saved++lost++toList s.queue ∧
    (writerOk s.writer = true → lost = inHand s.writer)
  gone : receiverOk s.receiver = true → writerOk s.writer = true → s.destroyed = s.saved

theorem served_same (hs : Served s) (he : t.enqueued = s.enqueued)
    (hsaved : t.saved = s.saved) (hq : t.queue = s.queue) (hd : t.destroyed = s.destroyed)
    (hr : receiverOk t.receiver = true → receiverOk s.receiver = true)
    (hw : writerOk t.writer = true → writerOk s.writer = true ∧
      inHand t.writer = inHand s.writer) : Served t := by
  obtain ⟨lost,hsplit,hlost⟩ := hs.split
  apply Served.mk
  · apply Exists.intro lost
    rw [he,hsaved,hq]
    apply And.intro hsplit
    intro hok
    rw [(hw hok).2]
    exact hlost (hw hok).1
  · intro hreceiver hok
    rw [hd,hsaved]
    exact hs.gone (hr hreceiver) (hw hok).1

theorem served_change (h : Change limit s t) (hs : Served s) : Served t := by
  cases h with
  | idle => exact hs
  | receives f rest hr _ | ends thread hr _ _ =>
    exact served_same hs rfl rfl rfl rfl (fun _ => by rw [hr]; rfl) (fun hw => ⟨hw,rfl⟩)
  | rejects f hr _ =>
    exact ⟨hs.split,fun hok => by cases hok⟩
  | waits f hr _ _ =>
    exact served_same hs rfl rfl rfl rfl (fun _ => (offers_held hr).2) (fun hw => ⟨hw,rfl⟩)
  | enqueues f queue hr _ hq _ =>
    obtain ⟨lost,hsplit,hlost⟩ := hs.split
    apply Served.mk
    · apply Exists.intro lost
      simp only [hq,hsplit,List.append_assoc,writerOk_signalNotEmpty,inHand_signalNotEmpty]
      exact ⟨trivial,hlost⟩
    · intro _ hw
      exact hs.gone (offers_held hr).2 (by simpa using hw)
  | finishes hr =>
    exact served_same hs rfl rfl rfl rfl (fun _ => by rw [hr]; rfl)
      (fun hw => by simpa [receiverThreadFinish] using hw)
  | fails hr =>
    exact served_same hs rfl rfl rfl rfl (fun hok => by cases hok)
      (fun hw => by simpa [receiverThreadFail] using hw)
  | starts thread hw ht =>
    refine served_same hs rfl rfl rfl rfl id ?_
    intro _
    rw [hw]
    rcases ht with rfl | rfl <;> exact ⟨rfl,rfl⟩
  | sleeps hw _ _ | returns hw _ _ =>
    have hfetch := fetches_inHand hw
    exact served_same hs rfl rfl rfl rfl id (fun _ => ⟨hfetch.2.2,hfetch.1.symm⟩)
  | dequeues f queue hw hq _ =>
    have hfetch := fetches_inHand hw
    obtain ⟨lost,hsplit,hlost⟩ := hs.split
    rw [hlost hfetch.2.2,hfetch.1,hq] at hsplit
    apply Served.mk
    · exact ⟨[f],by simpa using hsplit,fun _ => rfl⟩
    · intro hreceiver _
      exact hs.gone (by simpa using hreceiver) hfetch.2.2
  | writes f ok hw =>
    obtain ⟨lost,hsplit,hlost⟩ := hs.split
    rw [hlost (by rw [hw]; rfl),hw] at hsplit
    cases ok with
    | true =>
      apply Served.mk
      · exact ⟨[],by simpa [destroyFile,inHand_values] using hsplit,fun _ => rfl⟩
      · intro hreceiver _
        have hgone := hs.gone hreceiver (by rw [hw]; rfl)
        simp [destroyFile,hgone]
    | false =>
      apply Served.mk
      · exact ⟨[f],by simpa [destroyFile,inHand_values] using hsplit,fun hok => by cases hok⟩
      · intro _ hok
        cases hok
  | drops f ok hw _ =>
    refine served_same hs rfl rfl rfl rfl id ?_
    rw [hw]
    cases ok <;> simp [writerOk,inHand]
  | releases f ok hw =>
    refine served_same hs rfl rfl rfl rfl ?_ ?_
    · intro hreceiver
      simpa using hreceiver
    · rw [hw]
      cases ok <;> simp [writerOk,inHand]
  | gives_up hw =>
    refine served_same hs rfl rfl rfl rfl ?_ ?_
    · intro hreceiver
      simpa [writeThreadFail] using hreceiver
    · intro hok
      cases hok

def places (s : Pipeline) : List File :=
  s.destroyed++inHand s.writer++toList s.queue++held s.receiver++s.incoming

theorem places_change (h : Change limit s t) : (places t).Perm (places s) := by
  cases h with
  | idle => exact List.Perm.refl _
  | receives f rest hr hi => simp [places,hr,hi,held_values]
  | ends thread hr hi ht =>
    have hheld : held thread = [] := by
      rcases ht with rfl | rfl <;> rfl
    simp [places,hr,hi,hheld,held_values]
  | rejects f hr _ =>
    have hperm : (s.destroyed++([f]++(inHand s.writer++toList s.queue)++s.incoming)).Perm
        (s.destroyed++((inHand s.writer++toList s.queue)++[f]++s.incoming)) :=
      (List.perm_append_comm.append_right _).append_left _
    simpa [places,rejectFile,(offers_held hr).1,held_values] using hperm
  | waits f hr _ _ => simp [places,(offers_held hr).1,held_values]
  | enqueues f queue hr _ hq _ => simp [places,(offers_held hr).1,hq,held_values]
  | finishes hr => simp [places,receiverThreadFinish,hr,held_values]
  | fails hr => simp [places,receiverThreadFail,hr,held_values]
  | starts thread hw ht =>
    have hhand : inHand thread = [] := by
      rcases ht with rfl | rfl <;> rfl
    simp [places,hw,hhand,inHand_values]
  | sleeps hw _ _ | returns hw _ _ => simp [places,(fetches_inHand hw).1,inHand_values]
  | dequeues f queue hw hq _ => simp [places,(fetches_inHand hw).1,hq,inHand_values]
  | writes f ok hw => simp [places,destroyFile,hw,inHand_values]
  | drops f ok hw _ | releases f ok hw => cases ok <;> simp [places,hw,inHand_values]
  | gives_up hw => simp [places,writeThreadFail,hw,inHand_values]

/-! ## The queued bytes -/

/-- The counter is the bytes of the files queued or being written, and passes the limit
only for one file that has all of them. -/
structure Accounted (limit : UInt64) (s : Pipeline) : Prop where
  total : s.queuedBytes.toNat = totalBytes (outstanding s)
  bound : s.queuedBytes ≤ limit ∨ ∃ f ∈ outstanding s, fileBytes f = s.queuedBytes

theorem totalBytes_append (xs ys : List File) :
    totalBytes (xs++ys) = totalBytes xs+totalBytes ys := by
  simp [totalBytes]

theorem totalBytes_cons (f : File) (rest : List File) :
    totalBytes (f::rest) = (fileBytes f).toNat+totalBytes rest := by
  simp [totalBytes]

theorem fileBytes_le_total (h : f ∈ files) : (fileBytes f).toNat ≤ totalBytes files :=
  List.single_le_sum (fun _ _ => Nat.zero_le _) _ (List.mem_map.mpr ⟨f,h,rfl⟩)

/-- An admitted file fits beside what is queued, or nothing is. -/
theorem blockedByBudget_false {used bytes : UInt64} (hl : limit ≠ 0)
    (h : blockedByBudget limit used bytes = false) :
    used.toNat+bytes.toNat ≤ limit.toNat ∨ used = 0 := by
  have hpos : limit > 0 := UInt64.pos_iff_ne_zero.mpr hl
  unfold blockedByBudget at h
  split_ifs at h with hused hbytes
  · right
    simpa using h
  · left
    have hlt : used.toNat < limit.toNat := UInt64.lt_iff_toNat_lt.mp (UInt64.not_le.mp hused)
    have hsub : (limit-used).toNat = limit.toNat-used.toNat :=
      UInt64.toNat_sub_of_le limit used (UInt64.le_of_lt (UInt64.not_le.mp hused))
    have hle := UInt64.le_iff_toNat_le.mp (UInt64.not_lt.mp hbytes)
    omega

theorem accounted_same (hs : Accounted limit s)
    (ho : outstanding t = outstanding s) (hb : t.queuedBytes = s.queuedBytes) :
    Accounted limit t := by
  apply Accounted.mk
  · rw [ho,hb]
    exact hs.total
  · rw [ho,hb]
    exact hs.bound

theorem accounted_release (hs : Accounted limit s) (ho : outstanding s = f::outstanding t)
    (hb : t.queuedBytes.toNat = s.queuedBytes.toNat-(fileBytes f).toNat) : Accounted limit t := by
  have htotal := hs.total
  rw [ho,totalBytes_cons] at htotal
  apply Accounted.mk
  · omega
  · apply hs.bound.elim
    · intro hle
      left
      rw [UInt64.le_iff_toNat_le] at hle ⊢
      omega
    · intro hone
      obtain ⟨big,hmem,hbig⟩ := hone
      rw [ho,List.mem_cons] at hmem
      apply hmem.elim
      · intro heq
        left
        rw [heq] at hbig
        rw [UInt64.le_iff_toNat_le,hb,hbig]
        omega
      · intro hrest
        -- the large file has all the bytes, so the one that leaves has none
        right
        apply Exists.intro big
        apply And.intro hrest
        have hle := fileBytes_le_total hrest
        rw [hbig] at hle
        rw [hbig]
        apply UInt64.toNat_inj.mp
        omega

theorem accounted_change (hl : limit ≠ 0)
    (h : Change limit s t) (hs : Accounted limit s) : Accounted limit t := by
  cases h with
  | idle => exact hs
  | enqueues f queue hr hb hq _ =>
    have hfree := blockedByBudget_false hl (Bool.or_eq_false_iff.mp hb).2
    have hlimit := UInt64.toNat_lt limit
    have hbytes := UInt64.toNat_lt (fileBytes f)
    have hsum : (s.queuedBytes+fileBytes f).toNat = s.queuedBytes.toNat+(fileBytes f).toNat := by
      rw [UInt64.toNat_add]
      apply Nat.mod_eq_of_lt
      apply hfree.elim
      · omega
      · intro hzero
        rw [hzero,UInt64.toNat_zero]
        omega
    apply Accounted.mk
    · have htotal := hs.total
      rw [outstanding,totalBytes_append] at htotal
      simp only [outstanding,unreleased_signalNotEmpty,hq,totalBytes_append,totalBytes_cons]
      rw [hsum,htotal,Nat.add_assoc]
      rfl
    · apply hfree.imp
      · intro hfits
        exact hsum.trans_le hfits
      · intro hzero
        refine ⟨f,?_,?_⟩
        · simp [outstanding,hq]
        · show fileBytes f = s.queuedBytes+fileBytes f
          rw [hzero,UInt64.zero_add]
  | finishes _ => exact accounted_same hs (by simp [outstanding,receiverThreadFinish]) rfl
  | fails _ => exact accounted_same hs (by simp [outstanding,receiverThreadFail]) rfl
  | starts thread hw ht =>
    refine accounted_same hs ?_ rfl
    have hnone : unreleased thread = [] := by
      rcases ht with rfl | rfl <;> rfl
    simp only [outstanding,hnone,hw]
    rfl
  | sleeps hw _ _ | returns hw _ _ =>
    refine accounted_same hs ?_ rfl
    rw [outstanding,outstanding,(fetches_inHand hw).2.1]
    rfl
  | dequeues f queue hw hq _ =>
    refine accounted_same hs ?_ rfl
    rw [outstanding,outstanding,(fetches_inHand hw).2.1,hq]
    rfl
  | writes f ok hw | gives_up hw =>
    refine accounted_same hs ?_ rfl
    rw [outstanding,outstanding,hw]
    rfl
  | drops f ok hw hz =>
    have hzero : fileBytes f = 0 := hz.resolve_left hl
    refine accounted_release (f := f) hs ?_ ?_
    · rw [outstanding,outstanding,hw]
      cases ok <;> rfl
    · rw [hzero,UInt64.toNat_zero]
      rfl
  | releases f ok hw =>
    refine accounted_release (f := f) hs ?_ ?_
    · rw [outstanding,outstanding,hw]
      cases ok <;> rfl
    · show (if fileBytes f ≥ s.queuedBytes then 0 else s.queuedBytes-fileBytes f).toNat = _
      split_ifs with hge
      · have hle := UInt64.le_iff_toNat_le.mp hge
        rw [UInt64.toNat_zero]
        omega
      · exact UInt64.toNat_sub_of_le _ _ (UInt64.le_of_lt (UInt64.not_le.mp hge))
  | _ => exact accounted_same hs rfl rfl

/-! ## Nobody sleeps without reason -/

structure Awake (limit : UInt64) (s : Pipeline) : Prop where
  receiver : ∀ f, s.receiver = .asleep f false →
    s.cancelled = false ∧ blocked limit s f = true
  writer : s.writer = .asleep false → toList s.queue = [] ∧ s.receiverDone = false
  received : ∀ ok, s.receiver = .returned ok → s.receiverDone = true
  gaveUp : s.writer = .returned false → s.cancelled = true
  finished : s.receiverDone = true →
    (∃ ok, s.receiver = .returned ok) ∨ s.writer = .returned false
  drained : s.writer = .returned true →
    toList s.queue = [] ∧ ∃ ok, s.receiver = .returned ok

theorem awake_start {limit : UInt64} {queue : Queue File} {files : List File} {streamOk : Bool} :
    Awake limit (start queue files streamOk) := by
  apply Awake.mk <;> simp [start]

theorem offers_not_returned {thread : ReceiveThread} (h : Offers thread f) (ok : Bool) :
    thread ≠ .returned ok := by
  rcases h with rfl | ⟨signalled,rfl⟩ <;> exact ReceiveThread.noConfusion

theorem fetches_not_returned (h : Fetches thread) (ok : Bool) : thread ≠ .returned ok := by
  rcases h with rfl | ⟨signalled,rfl⟩ <;> exact WriteThread.noConfusion

section
variable (hs : Awake limit s)
include hs

theorem awake_receiver {incoming destroyed : List File} {thread : ReceiveThread}
    (hold : ∀ ok, s.receiver ≠ .returned ok) (hnew : ∀ ok, thread ≠ .returned ok)
    (hasleep : ∀ f, thread = .asleep f false → s.cancelled = false ∧ blocked limit s f = true) :
    Awake limit
      { s with
        incoming := incoming
        receiver := thread
        destroyed := destroyed } where
  receiver := hasleep
  writer := hs.writer
  received := fun ok h => absurd h (hnew ok)
  gaveUp := hs.gaveUp
  finished := by
    intro hdone
    apply (hs.finished hdone).imp_left
    rintro ⟨ok,hok⟩
    exact absurd hok (hold ok)
  drained := by
    intro hw
    obtain ⟨ok,hok⟩ := (hs.drained hw).2
    exact absurd hok (hold ok)

theorem awake_return {ok cancelled : Bool} (hold : ∀ ok, s.receiver ≠ .returned ok)
    (hc : s.cancelled = true → cancelled = true) :
    Awake limit
      { s with
        receiver := .returned ok
        writer := signalNotEmpty s.writer
        receiverDone := true
        cancelled := cancelled } where
  receiver := by
    intro f h
    cases h
  writer := fun h => absurd h signalNotEmpty_asleep
  received := fun _ _ => rfl
  gaveUp := fun h => hc (hs.gaveUp (signalNotEmpty_returned.mp h))
  finished := fun _ => .inl ⟨ok,rfl⟩
  drained := by
    intro h
    obtain ⟨ok',hok⟩ := (hs.drained (signalNotEmpty_returned.mp h)).2
    exact absurd hok (hold ok')

theorem awake_writer {saved destroyed : List File} (hold : ∀ ok, s.writer ≠ .returned ok)
    (hnew : ∀ ok, thread ≠ .returned ok)
    (hasleep : thread = .asleep false → toList s.queue = [] ∧ s.receiverDone = false) :
    Awake limit
      { s with
        writer := thread
        saved := saved
        destroyed := destroyed } where
  receiver := hs.receiver
  writer := hasleep
  received := hs.received
  gaveUp := fun h => absurd h (hnew false)
  finished := fun hdone => .inl ((hs.finished hdone).resolve_right (hold false))
  drained := fun h => absurd h (hnew true)

theorem awake_room {queue : Queue File} {bytes : UInt64} (hold : ∀ ok, s.writer ≠ .returned ok)
    (hnew : ∀ ok, thread ≠ .returned ok) (hasleep : thread ≠ .asleep false) :
    Awake limit
      { s with
        receiver := signalNotFull s.receiver
        writer := thread
        queue := queue
        queuedBytes := bytes } where
  receiver := fun f h => absurd h signalNotFull_asleep
  writer := fun h => absurd h hasleep
  received := fun ok h => hs.received ok (signalNotFull_returned.mp h)
  gaveUp := fun h => absurd h (hnew false)
  finished := by
    intro hdone
    obtain ⟨ok,hok⟩ := (hs.finished hdone).resolve_right (hold false)
    exact .inl ⟨ok,signalNotFull_returned.mpr hok⟩
  drained := fun h => absurd h (hnew true)

end

theorem awake_change (h : Change limit s t) (hs : Awake limit s) : Awake limit t := by
  cases h with
  | idle => exact hs
  | receives f rest hr _ =>
    exact awake_receiver hs (by simp [hr]) (by simp) (by simp)
  | ends thread hr _ ht =>
    rcases ht with rfl | rfl <;>
      exact awake_receiver hs (by simp [hr]) (by simp) (by simp)
  | rejects f hr _ =>
    exact awake_receiver hs (offers_not_returned hr) (by simp)
      (by simp)
  | waits f hr hc hb =>
    refine awake_receiver hs (offers_not_returned hr) (by simp) ?_
    intro g hg
    cases hg
    exact ⟨hc,hb⟩
  | enqueues f queue hr _ _ _ =>
    have hnot : s.receiverDone = true → s.writer = .returned false := by
      intro hdone
      apply (hs.finished hdone).resolve_left
      rintro ⟨ok,hok⟩
      exact offers_not_returned hr ok hok
    apply Awake.mk
    · intro g hg
      cases hg
    · exact fun h => absurd h signalNotEmpty_asleep
    · intro ok hok
      cases hok
    · exact fun h => hs.gaveUp (signalNotEmpty_returned.mp h)
    · exact fun hdone => .inr (signalNotEmpty_returned.mpr (hnot hdone))
    · intro h
      obtain ⟨ok,hok⟩ := (hs.drained (signalNotEmpty_returned.mp h)).2
      exact absurd hok (offers_not_returned hr ok)
  | finishes hr => exact awake_return hs (by simp [hr]) id
  | fails hr => exact awake_return hs (by simp [hr]) (fun _ => rfl)
  | starts thread hw ht =>
    rcases ht with rfl | rfl <;>
      exact awake_writer hs (by simp [hw]) (by simp) (by simp)
  | sleeps hw hq hd =>
    exact awake_writer hs (fetches_not_returned hw) (by simp)
      (fun _ => ⟨hq,hd⟩)
  | returns hw hq hd =>
    have hreturned := (hs.finished hd).resolve_right (fetches_not_returned hw false)
    apply Awake.mk
    · exact hs.receiver
    · intro h
      cases h
    · exact hs.received
    · intro h
      cases h
    · exact fun _ => .inl hreturned
    · exact fun _ => ⟨hq,hreturned⟩
  | dequeues f queue hw _ _ =>
    exact awake_room hs (fetches_not_returned hw) (by simp) (by simp)
  | writes f ok hw => exact awake_writer hs (by simp [hw]) (by simp) (by simp)
  | drops f ok hw _ =>
    refine awake_writer hs (by simp [hw]) ?_ ?_
    · cases ok <;> simp
    · cases ok <;> simp
  | releases f ok hw =>
    refine awake_room hs (by simp [hw]) ?_ ?_
    · cases ok <;> simp
    · cases ok <;> simp
  | gives_up hw =>
    apply Awake.mk
    · exact fun f h => absurd h signalNotFull_asleep
    · intro h
      cases h
    · exact fun _ _ => rfl
    · exact fun _ => rfl
    · exact fun _ => .inr rfl
    · intro h
      cases h

theorem blocked_outstanding
    (hs : limit ≠ 0 → Accounted limit s) (h : blocked limit s f = true) : outstanding s ≠ [] := by
  intro hnone
  have hempty : toList s.queue = [] := (List.append_eq_nil_iff.mp hnone).2
  apply (Bool.or_eq_true_iff.mp h).elim
  · intro hfull
    have hlength := (queueIsFull_iff s.queue).mp hfull
    have hpos := s.queue.capacity_pos
    rw [hempty,List.length_nil] at hlength
    omega
  · intro hbudget
    by_cases hl : limit = 0
    · rw [hl] at hbudget
      exact absurd hbudget (by simp [blockedByBudget])
    · have htotal := (hs hl).total
      rw [hnone] at htotal
      have hzero : s.queuedBytes = 0 := UInt64.toNat_inj.mp htotal
      have hpos : limit > 0 := UInt64.pos_iff_ne_zero.mpr hl
      rw [hzero,blockedByBudget,if_pos hpos,if_neg (UInt64.not_le.mpr hpos)] at hbudget
      split_ifs at hbudget
      exact absurd hbudget (by decide)

theorem enqueueFile_receiver (limit : UInt64) (allocated : Bool) (s : Pipeline) (f : File) :
    (enqueueFile limit allocated s f).receiver = .failing ∨
      (enqueueFile limit allocated s f).receiver = .asleep f false ∨
      (enqueueFile limit allocated s f).receiver = .receiving := by
  unfold enqueueFile
  split_ifs
  · exact .inl rfl
  · exact .inr (.inl rfl)
  · split
    · exact .inl rfl
    · exact .inr (.inr rfl)

theorem receiveThread_fixed {spurious allocated : Bool}
    (h : receiveThread limit spurious allocated s = s) :
    (∃ ok, s.receiver = .returned ok) ∨ ∃ f, s.receiver = .asleep f false := by
  have hfixed := congrArg Pipeline.receiver h
  cases hr : s.receiver with
  | receiving =>
    rw [receiveThread,hr,receiveNext] at hfixed
    cases hi : s.incoming with
    | nil =>
      simp only [hi] at hfixed
      split_ifs at hfixed
    | cons f rest => simp [hi] at hfixed
  | offering f =>
    have hnext := enqueueFile_receiver limit allocated s f
    rw [receiveThread,hr] at hfixed
    simp [hfixed] at hnext
  | asleep f signalled =>
    cases signalled with
    | false => exact .inr ⟨f,rfl⟩
    | true =>
      have hnext := enqueueFile_receiver limit allocated s f
      rw [receiveThread,hr] at hfixed
      simp only [Bool.true_or,if_true] at hfixed
      simp [hfixed] at hnext
  | finishing | failing =>
    rw [receiveThread,hr] at hfixed
    cases hfixed
  | returned ok => exact .inl ⟨ok,rfl⟩

theorem dequeueFile_writer (s : Pipeline) :
    (dequeueFile s).writer = .asleep false ∨ (dequeueFile s).writer = .returned true ∨
      ∃ f, (dequeueFile s).writer = .writing f := by
  unfold dequeueFile
  split_ifs
  · exact .inl rfl
  · exact .inr (.inl rfl)
  · split
    · exact .inr (.inl rfl)
    · exact .inr (.inr ⟨_,rfl⟩)

theorem writeThread_fixed {config : Config} {spurious : Bool} {answer : Answer}
    (h : writeThread config limit spurious answer s = s) :
    (∃ ok, s.writer = .returned ok) ∨ s.writer = .asleep false := by
  have hfixed := congrArg Pipeline.writer h
  cases hw : s.writer with
  | starting =>
    rw [writeThread,hw] at hfixed
    split_ifs at hfixed
  | fetching =>
    have hnext := dequeueFile_writer s
    rw [writeThread,hw] at hfixed
    simp [hfixed] at hnext
  | asleep signalled =>
    cases signalled with
    | false => exact .inr rfl
    | true =>
      have hnext := dequeueFile_writer s
      rw [writeThread,hw] at hfixed
      simp only [Bool.true_or,if_true] at hfixed
      simp [hfixed] at hnext
  | writing f | failing =>
    rw [writeThread,hw] at hfixed
    cases hfixed
  | releasing f ok =>
    rw [writeThread,hw] at hfixed
    cases ok <;> cases hfixed
  | returned ok => exact .inl ⟨ok,rfl⟩

theorem both_returned (ha : Awake limit s) (hb : limit ≠ 0 → Accounted limit s)
    (hr : (∃ ok, s.receiver = .returned ok) ∨ ∃ f, s.receiver = .asleep f false)
    (hw : (∃ ok, s.writer = .returned ok) ∨ s.writer = .asleep false) :
    (∃ ok, s.receiver = .returned ok) ∧ ∃ ok, s.writer = .returned ok := by
  rcases hr with hreceiver | ⟨f,hf⟩
  · apply And.intro hreceiver
    apply hw.resolve_right
    intro hasleep
    obtain ⟨ok,hok⟩ := hreceiver
    have hdone := ha.received ok hok
    rw [(ha.writer hasleep).2] at hdone
    cases hdone
  · have hreason := ha.receiver f hf
    exfalso
    rcases hw with ⟨ok,hok⟩ | hasleep
    · cases ok with
      | false =>
        have hcancelled := ha.gaveUp hok
        rw [hreason.1] at hcancelled
        cases hcancelled
      | true =>
        obtain ⟨_,hreturned⟩ := (ha.drained hok).2
        rw [hf] at hreturned
        cases hreturned
    · apply blocked_outstanding hb hreason.2
      rw [outstanding,hasleep,(ha.writer hasleep).1]
      rfl

/-! ## Whole runs -/

theorem run_invariant {config : Config} {P : Pipeline → Prop}
    (hs : P s) (hstep : ∀ {s t}, Change limit s t → P s → P t) (schedule : List Move) :
    P (run config limit s schedule) := by
  induction schedule generalizing s with
  | nil => exact hs
  | cons move rest ih => exact ih (hstep (step_change config limit s move) hs)

variable {queue : Queue File}

theorem accounted_start (limit : UInt64) (hq : toList queue = [])
    (files : List File) (streamOk : Bool) : Accounted limit (start queue files streamOk) := by
  have hnone : outstanding (start queue files streamOk) = [] := hq
  apply Accounted.mk
  · rw [hnone]
    rfl
  · left
    exact UInt64.zero_le

theorem fed_start {files : List File} {streamOk : Bool} :
    Fed files (start queue files streamOk) where
  split := fun _ => rfl
  drained := by
    rintro (h | h) <;> cases h
  accepted := List.nil_prefix

theorem served_start (hq : toList queue = []) {files : List File}
    {streamOk : Bool} : Served (start queue files streamOk) where
  split := ⟨[],hq.symm,fun _ => rfl⟩
  gone := fun _ _ => rfl

theorem accounted_oversized (hs : Accounted limit s) (h : s.queuedBytes > limit) :
    (outstanding s).countP (fun f => fileBytes f > limit) = 1 := by
  obtain ⟨big,hmem,hbig⟩ := hs.bound.resolve_left (UInt64.not_le.mpr h)
  obtain ⟨front,back,hsplit⟩ := List.append_of_mem hmem
  have htotal := hs.total
  rw [hsplit,totalBytes_append,totalBytes_cons,hbig] at htotal
  have hsmall : ∀ f, f ∈ front ∨ f ∈ back → ¬ fileBytes f > limit := by
    intro f hf hover
    have hover' := UInt64.lt_iff_toNat_lt.mp hover
    apply hf.elim <;> (intro hf; have hle := fileBytes_le_total hf; omega)
  have hfront : front.countP (fun f => fileBytes f > limit) = 0 :=
    List.countP_eq_zero.mpr fun f hf => by simpa using hsmall f (.inl hf)
  have hback : back.countP (fun f => fileBytes f > limit) = 0 :=
    List.countP_eq_zero.mpr fun f hf => by simpa using hsmall f (.inr hf)
  rw [hsplit,List.countP_append,List.countP_cons,hfront,hback,hbig]
  simp [h]

structure Delivering (limit : UInt64) (files : List File) (s : Pipeline) : Prop where
  bytes : limit > 0 → s.queuedBytes.toNat = totalBytes (outstanding s)
  oversized : limit > 0 → s.queuedBytes > limit →
    (outstanding s).countP (fun f => fileBytes f > limit) = 1
  waiting : ∀ f, s.receiver = .asleep f false ∨ Offers s.receiver f ∧ blocked limit s f = true →
    outstanding s ≠ []
  inOrder : s.saved <+: s.enqueued ∧ s.enqueued <+: files
  onePlace : files.Perm (places s)
  complete : s.receiver = .returned true → s.writer = .returned true →
    s.enqueued = files ∧ s.saved = files ∧ s.destroyed = files

section
variable {config : Config} {limit : UInt64} (hq : toList queue = []) {files : List File}
  {streamOk : Bool}
include hq

theorem delivering_run (schedule : List Move) :
    Delivering limit files (run config limit (start queue files streamOk) schedule) := by
  have hfed : Fed files (run config limit (start queue files streamOk) schedule) :=
    run_invariant fed_start fed_change schedule
  have hserved : Served (run config limit (start queue files streamOk) schedule) :=
    run_invariant (served_start hq) served_change schedule
  have hawake : Awake limit (run config limit (start queue files streamOk) schedule) :=
    run_invariant awake_start awake_change schedule
  have hplaces : files.Perm (places (run config limit (start queue files streamOk) schedule)) := by
    have hstart : files.Perm (places (start queue files streamOk)) := by
      rw [places,start,hq]
      exact List.Perm.refl _
    exact run_invariant (P := fun s => files.Perm (places s)) hstart
      (fun hc hs => hs.trans (places_change hc).symm) schedule
  have hbytes : limit ≠ 0 →
      Accounted limit (run config limit (start queue files streamOk) schedule) :=
    fun hl => run_invariant (accounted_start limit hq files streamOk) (accounted_change hl) schedule
  generalize run config limit (start queue files streamOk) schedule = s at *
  apply Delivering.mk
  · exact fun hl => (hbytes (UInt64.pos_iff_ne_zero.mp hl)).total
  · exact fun hl hover => accounted_oversized (hbytes (UInt64.pos_iff_ne_zero.mp hl)) hover
  · intro f h
    apply h.elim
    · exact fun hasleep => blocked_outstanding hbytes (hawake.receiver f hasleep).2
    · exact fun hblocked => blocked_outstanding hbytes hblocked.2
  · apply And.intro _ hfed.accepted
    obtain ⟨lost,hsplit,_⟩ := hserved.split
    exact ⟨lost++toList s.queue,by rw [hsplit,List.append_assoc]⟩
  · exact hplaces
  · intro hr hw
    have hfiles := hfed.split (by rw [hr]; rfl)
    rw [hfed.drained (.inr hr),hr] at hfiles
    obtain ⟨lost,hsplit,hlost⟩ := hserved.split
    rw [hlost (by rw [hw]; rfl),hw,(hawake.drained hw).1] at hsplit
    have hgone := hserved.gone (by rw [hr]; rfl) (by rw [hw]; rfl)
    have henqueued : files = s.enqueued := by simpa [held_values] using hfiles
    have hsaved : s.enqueued = s.saved := by simpa [inHand_values] using hsplit
    exact ⟨henqueued.symm,(henqueued.trans hsaved).symm,
      hgone.trans (henqueued.trans hsaved).symm⟩

def IsReceive : Move → Prop
  | .receive _ _ => True
  | .write _ _ => False

def IsWrite : Move → Prop
  | .receive _ _ => False
  | .write _ _ => True

theorem fair_run_returns (schedule : ℕ → Move) (hr : Fair IsReceive schedule)
    (hw : Fair IsWrite schedule) :
    ∃ n, (∃ ok, (trace (step config limit) (start queue files streamOk) schedule n).receiver =
        .returned ok) ∧
      ∃ ok, (trace (step config limit) (start queue files streamOk) schedule n).writer =
        .returned ok := by
  obtain ⟨n,hn⟩ := fair_settles rank (fun s move => rank_change (step_change config limit s move))
    (start queue files streamOk) schedule
  apply Exists.intro n
  have hawake : Awake limit (trace (step config limit) (start queue files streamOk) schedule n) :=
    trace_invariant awake_start
      (fun s move => awake_change (step_change config limit s move))
  have hbytes : limit ≠ 0 →
      Accounted limit (trace (step config limit) (start queue files streamOk) schedule n) :=
    fun hl => trace_invariant (accounted_start limit hq files streamOk)
      (fun s move => accounted_change hl (step_change config limit s move))
  apply both_returned hawake hbytes
  · obtain ⟨move,hmove,hfixed⟩ := hn IsReceive hr
    cases move with
    | receive spurious allocated => exact receiveThread_fixed hfixed
    | write spurious answer => cases hmove
  · obtain ⟨move,hmove,hfixed⟩ := hn IsWrite hw
    cases move with
    | receive spurious allocated => cases hmove
    | write spurious answer => exact writeThread_fixed hfixed

end

end FastSync.ReceiverDelivery
