import FastSync.DaemonCaps
import Mathlib.Data.List.Induction

/-!
# Authentication lockouts

A source is locked out by the deadline in its bucket. Other sources may take over
buckets, but not one whose deadline lies ahead, so a lockout lasts its time. The
failures that led to it all came after the last success and after the end of the
lockout before: a query that finds a deadline past clears the count.
-/

set_option autoImplicit false

namespace FastSync.DaemonLockout
open DaemonLimits DaemonRuns

structure Hosts where
  slots : ℕ
  threshold : Int32
  duration : ℕ
  key : ℕ → UInt64
  fail : ℕ → Int32
  deadline : ℕ → ℕ

def hostsOf (r : Registry) : Hosts where
  slots := r.hostSlots
  threshold := r.lockoutThreshold
  duration := r.lockoutDurationSec.toInt.toNat
  key := r.hostKey
  fail := r.hostFail
  deadline := r.hostUntil

def Holds (h : Hosts) (p : Peer) (b : ℕ) : Prop := b < h.slots ∧ h.key b = hostHash p

def reset (h : Hosts) (b : ℕ) : Hosts :=
  { h with
    fail := Function.update h.fail b 0
    deadline := Function.update h.deadline b 0 }

def seat (h : Hosts) (p : Peer) (b : ℕ) : Hosts :=
  { reset h b with key := Function.update h.key b (hostHash p) }

def strike (h : Hosts) (b now : ℕ) : Hosts :=
  { h with
    fail := Function.update h.fail b (h.fail b+1)
    deadline :=
      if h.threshold ≤ h.fail b+1 then Function.update h.deadline b (now+h.duration)
      else h.deadline }

/-- A source stays in its bucket, or takes an empty or spare one. -/
inductive Seated (h : Hosts) (p : Peer) (now : ℕ) : ℕ → Hosts → Prop where
  | own (b : ℕ) (hb : Holds h p b) : Seated h p now b h
  | taken (b : ℕ) (hb : b < h.slots) (hspare : h.deadline b ≤ now)
      (habsent : ∀ j, ¬ Holds h p j) : Seated h p now b (seat h p b)

def recorded : Operation → Option Peer
  | .authRecordFailure peer _ _ => peer
  | .authRecordSuccess peer _ => peer
  | _ => none

inductive Move (h : Hosts) : Operation → Hosts → Prop where
  | stay (op : Operation) (hop : ∀ p b, recorded op = some p → ¬ Holds h p b) : Move h op h
  | register (slot module : Int32) (p : Peer) (now b : ℕ) (h' : Hosts)
      (hs : Seated h p now b h') : Move h (.register slot module (some p) now) h'
  | expire (p : Peer) (seen now b : ℕ) (hb : Holds h p b) (hdue : h.deadline b ≤ now) :
      Move h (.authLocked (some p) seen now) (reset h b)
  | forgive (p : Peer) (now b : ℕ) (hb : Holds h p b) :
      Move h (.authRecordSuccess (some p) now) (reset h b)
  | fail (p : Peer) (seen now b : ℕ) (h' : Hosts) (hs : Seated h p seen b h') :
      Move h (.authRecordFailure (some p) seen now) (strike h' b now)

structure Counted (h : Hosts) : Prop where
  blank : ∀ b < h.slots, h.key b = 0 → h.fail b = 0 ∧ h.deadline b = 0
  below : ∀ b < h.slots, h.deadline b = 0 → 0 ≤ h.fail b ∧ h.fail b < h.threshold
  reached : ∀ b < h.slots, h.deadline b ≠ 0 → h.threshold ≤ h.fail b

variable {now b : ℕ}

section Steps
variable {r : Registry}

theorem seated_interned {p : Peer} {r' : Registry} (hc : Counted (hostsOf r))
    (h : Interned r p now (some b) r') : Seated (hostsOf r) p now b (hostsOf r') := by
  cases h with
  | own b hb hkey => exact .own b ⟨hb,hkey⟩
  | fresh b hb hkey habsent =>
    obtain ⟨hfail,hdead⟩ := hc.blank b hb hkey
    have hsame : hostsOf { r.touch b now with
        hostKey := Function.update r.hostKey b (hostHash p) } = seat (hostsOf r) p b := by
      have h₁ : Function.update (hostsOf r).fail b 0 = (hostsOf r).fail := by
        rw [← hfail, Function.update_eq_self]
      have h₂ : Function.update (hostsOf r).deadline b 0 = (hostsOf r).deadline := by
        rw [← hdead, Function.update_eq_self]
      unfold seat reset
      rw [h₁, h₂]
      rfl
    rw [hsame]
    exact .taken b hb (by rw [hdead]; exact Nat.zero_le now) (fun j hj => habsent j hj.1 hj.2)
  | evicted b hb hspare habsent =>
    have hdue : r.hostUntil b ≤ now := by
      unfold hostBucketReclaimable at hspare
      split_ifs at hspare with hactive huntil
      · exact of_decide_eq_true hspare
      · omega
    exact .taken b hb hdue (fun j hj => habsent j hj.1 hj.2)

theorem hostsOf_warn {r : Registry} {now : ℕ} : hostsOf (hostWarnTableFull r now) = hostsOf r := by
  obtain ⟨warned,hw⟩ := hostWarnTableFull_hosts
  rw [hw]
  rfl

theorem unseated_interned {p : Peer} {r' : Registry} (h : Interned r p now none r') :
    hostsOf r' = hostsOf r ∧ ∀ b, ¬ Holds (hostsOf r) p b := by
  cases h with
  | full habsent => exact ⟨hostsOf_warn,fun b hb => habsent b hb.1 hb.2⟩

theorem hostsOf_registerIn (slot module : ℕ) (host : Option ℕ) (moduleCap : Int32) :
    hostsOf (registerIn r slot module host moduleCap).2 = hostsOf r := by
  rcases registerIn_cases r slot module host moduleCap with ⟨_,_,hr⟩ | ⟨_,_,hr⟩
  · rw [hr]
  · rw [hr]
    rfl

theorem move_intern {op : Operation} {peer : Option Peer} {slot module : Int32}
    (ht : Table r) (hc : Counted (hostsOf r)) (hop : op = .register slot module peer now) :
    Move (hostsOf r) op (hostsOf (hostIntern r peer now).2) := by
  subst hop
  cases peer with
  | none => exact .stay _ (by intro p b h; cases h)
  | some p =>
    have hi := (hostIntern_interned ht p now).1
    cases hhost : (hostIntern r (some p) now).1 with
    | none =>
      rw [hhost] at hi
      rw [(unseated_interned hi).1]
      exact .stay _ (by intro p b h; cases h)
    | some b =>
      rw [hhost] at hi
      exact .register slot module p now b _ (seated_interned hc hi)

section
variable (ht : Table r)
include ht

theorem move_register (hc : Counted (hostsOf r)) {slot module : Int32} {peer : Option Peer}
    {moduleCap : Int32} {now : ℕ} :
    Move (hostsOf r) (.register slot module peer now)
      (hostsOf (daemonLimitsRegister r slot module peer moduleCap now).2) := by
  have hstay : Move (hostsOf r) (.register slot module peer now) (hostsOf r) :=
    .stay _ (by intro p b h; cases h)
  unfold daemonLimitsRegister
  split
  · split_ifs
    · exact hstay
    · rw [hostsOf_registerIn]
      exact move_intern ht hc rfl
    · rw [hostsOf_registerIn]
      exact hstay
  · exact hstay

theorem authLocked_cases (hlock : r.lockout = true) {p : Peer} {seen now : ℕ} :
    (∃ b, Holds (hostsOf r) p b ∧ now < (hostsOf r).deadline b ∧
      daemonLimitsAuthLocked r (some p) seen now =
        (some ((hostsOf r).deadline b-now),r.touch b seen)) ∨
    (daemonLimitsAuthLocked r (some p) seen now).1 = none ∧
      ((∃ b, Holds (hostsOf r) p b ∧ (hostsOf r).deadline b ≤ now ∧
        hostsOf (daemonLimitsAuthLocked r (some p) seen now).2 = reset (hostsOf r) b) ∨
      (∀ b, Holds (hostsOf r) p b → (hostsOf r).deadline b = 0) ∧
        hostsOf (daemonLimitsAuthLocked r (some p) seen now).2 = hostsOf r) := by
  unfold daemonLimitsAuthLocked
  rw [if_pos hlock]
  rcases hostLookup_cases ht with ⟨b,hb,hkey,hl⟩ | ⟨habsent,hl⟩
  · rw [hl]
    simp only
    by_cases hahead : now < (r.touch b seen).hostUntil b
    · rw [if_pos hahead]
      exact .inl ⟨b,⟨hb,hkey⟩,hahead,rfl⟩
    rw [if_neg hahead]
    by_cases hset : (r.touch b seen).hostUntil b ≠ 0
    · rw [if_pos hset]
      exact .inr ⟨rfl,.inl ⟨b,⟨hb,hkey⟩,Nat.not_lt.mp hahead,rfl⟩⟩
    · rw [if_neg hset]
      refine .inr ⟨rfl,.inr ⟨?_,rfl⟩⟩
      intro c hcHolds
      have hbc : b = c := ht.chained.unique b hb c hcHolds.1
        (by rw [hkey]; exact hostHash_ne_zero p) (hkey.trans hcHolds.2.symm)
      rw [← hbc]
      exact not_not.mp hset
  · rw [hl]
    exact .inr ⟨rfl,.inr ⟨fun b hb => absurd hb.2 (habsent b hb.1),rfl⟩⟩

theorem move_authLocked (hlock : r.lockout = true) {peer : Option Peer} {seen now : ℕ} :
    Move (hostsOf r) (.authLocked peer seen now)
      (hostsOf (daemonLimitsAuthLocked r peer seen now).2) := by
  have hstay : Move (hostsOf r) (.authLocked peer seen now) (hostsOf r) :=
    .stay _ (by intro p b h; cases h)
  cases peer with
  | none =>
    have hsame : (daemonLimitsAuthLocked r none seen now).2 = r := by
      unfold daemonLimitsAuthLocked
      rw [if_pos hlock]
      rfl
    rw [hsame]
    exact hstay
  | some p =>
    rcases authLocked_cases ht hlock with
      ⟨b,_,_,heq⟩ | ⟨_,⟨b,hb,hdue,heq⟩ | ⟨_,heq⟩⟩
    · rw [heq]
      exact hstay
    · rw [heq]
      exact .expire p seen now b hb hdue
    · rw [heq]
      exact hstay

theorem move_authRecordSuccess {peer : Option Peer} {now : ℕ} :
    Move (hostsOf r) (.authRecordSuccess peer now)
      (hostsOf (daemonLimitsAuthRecordSuccess r peer now)) := by
  cases peer with
  | none => exact .stay _ (by intro p b h; cases h)
  | some p =>
    unfold daemonLimitsAuthRecordSuccess
    rcases hostLookup_cases ht with ⟨b,hb,hkey,hl⟩ | ⟨habsent,hl⟩
    · rw [hl]
      exact .forgive p now b ⟨hb,hkey⟩
    · rw [hl]
      apply Move.stay
      intro q b hq hb
      cases hq
      exact habsent b hb.1 hb.2

theorem move_authRecordFailure (hc : Counted (hostsOf r)) (hlock : r.lockout = true)
    {peer : Option Peer} {seen now : ℕ} :
    Move (hostsOf r) (.authRecordFailure peer seen now)
      (hostsOf (daemonLimitsAuthRecordFailure r peer seen now)) := by
  unfold daemonLimitsAuthRecordFailure
  rw [if_pos hlock]
  cases peer with
  | none => exact .stay _ (by intro p b h; cases h)
  | some p =>
    have hi := (hostIntern_interned ht p seen).1
    cases hhost : hostIntern r (some p) seen with
    | mk host r₁ =>
      rw [hhost] at hi
      cases host with
      | none =>
        obtain ⟨hsame,habsent⟩ := unseated_interned hi
        rw [hsame]
        apply Move.stay
        intro q b hq
        cases hq
        exact habsent b
      | some b =>
        have hm := Move.fail p seen now b _ (seated_interned hc hi)
        have hstrike : hostsOf (if r₁.lockoutThreshold ≤ r₁.hostFail b+1 then
            { r₁ with
              hostFail := Function.update r₁.hostFail b (r₁.hostFail b+1)
              hostUntil := Function.update r₁.hostUntil b
                (now+r₁.lockoutDurationSec.toInt.toNat) }
          else { r₁ with hostFail := Function.update r₁.hostFail b (r₁.hostFail b+1) }) =
            strike (hostsOf r₁) b now := by
          unfold strike
          split_ifs with hle hle' hle'
          · rfl
          · exact absurd hle hle'
          · exact absurd hle' hle
          · rfl
        rw [← hstrike] at hm
        exact hm

end

theorem step_move (cap : ℕ → Int32) {d : Daemon} (ht : Table d.registry)
    (hc : Counted (hostsOf d.registry)) (hlock : d.registry.lockout = true) (op : Operation) :
    Move (hostsOf d.registry) op (hostsOf (step cap d op).registry) := by
  have hvacates : ∀ r', Vacates d.registry r' → recorded op = none →
      Move (hostsOf d.registry) op (hostsOf r') := by
    intro r' hv hop
    obtain ⟨_,_,_,_,hr⟩ := hv.rest
    rw [hr]
    apply Move.stay
    intro p b h
    rw [hop] at h
    cases h
  cases op with
  | claimSlot => exact hvacates _ vacates_claim rfl
  | setSlotPid slot pid => exact hvacates _ vacates_setSlotPid rfl
  | register slot module peer now => exact move_register ht hc
  | reclaimSlot slot => exact hvacates _ vacates_reclaimSlot rfl
  | reclaimPid pid => exact hvacates _ vacates_reclaimPid rfl
  | recompute =>
    obtain ⟨_,_,hr⟩ := recompute_counters d.registry
    show Move _ _ (hostsOf (daemonLimitsRecompute d.registry))
    rw [hr]
    exact .stay _ (by intro p b h; cases h)
  | authLocked peer seen now => exact move_authLocked ht hlock
  | authRecordFailure peer seen now => exact move_authRecordFailure ht hc hlock
  | authRecordSuccess peer now => exact move_authRecordSuccess ht

end Steps

/-! ## What a move keeps -/

def Unique (h : Hosts) : Prop := ∀ p b c, Holds h p b → Holds h p c → b = c

def Clear (h : Hosts) (p : Peer) : Prop := ∀ b, Holds h p b → h.deadline b = 0

def Kept (h h' : Hosts) (p : Peer) : Prop :=
  ∀ b, (Holds h' p b ↔ Holds h p b) ∧
    (Holds h p b → h'.fail b = h.fail b ∧ h'.deadline b = h.deadline b)

def Fresh (h : Hosts) (p : Peer) : Prop := ∀ b, Holds h p b → h.fail b = 0

def Locked (h : Hosts) (p : Peer) (u : ℕ) : Prop := ∃ b, Holds h p b ∧ h.deadline b = u

theorem unique_hostsOf {r : Registry} (ht : Table r) : Unique (hostsOf r) := by
  intro p b c hb hc
  exact ht.chained.unique b hb.1 c hc.1 (fun h => hostHash_ne_zero p (hb.2.symm.trans h))
    (hb.2.trans hc.2.symm)

variable {u seen : ℕ}

section Moves
variable {h h' : Hosts} {p : Peer} {op : Operation}

theorem seated_holds (hs : Seated h p now b h') : Holds h' p b := by
  cases hs with
  | own hb => exact hb
  | taken hb hspare habsent => exact ⟨hb,Function.update_self _ _ _⟩

theorem seated_fixed (hs : Seated h p now b h') :
    h'.slots = h.slots ∧ h'.threshold = h.threshold ∧ h'.duration = h.duration := by
  cases hs with
  | own hb | taken hb hspare habsent => exact ⟨rfl,rfl,rfl⟩

theorem move_fixed (hm : Move h op h') :
    h'.slots = h.slots ∧ h'.threshold = h.threshold ∧ h'.duration = h.duration := by
  cases hm with
  | stay op hop | expire p seen now b hb hdue | forgive p now b hb => exact ⟨rfl,rfl,rfl⟩
  | register slot module p now b h' hs => exact seated_fixed hs
  | fail p seen now b h₁ hs =>
    have hf := seated_fixed hs
    exact ⟨hf.1,hf.2.1,hf.2.2⟩

theorem seated_clear (hs : Seated h p now b h') (hclear : Clear h p) : h'.deadline b = 0 := by
  cases hs with
  | own hb => exact hclear b hb
  | taken hb hspare habsent => exact Function.update_self _ _ _

theorem counted_at (hc : Counted h) (hfixed : h'.slots = h.slots ∧ h'.threshold = h.threshold)
    (hoff : ∀ c ≠ b, h'.key c = h.key c ∧ h'.fail c = h.fail c ∧ h'.deadline c = h.deadline c)
    (hblank : h'.key b = 0 → h'.fail b = 0 ∧ h'.deadline b = 0)
    (hbelow : h'.deadline b = 0 → 0 ≤ h'.fail b ∧ h'.fail b < h'.threshold)
    (hreached : h'.deadline b ≠ 0 → h'.threshold ≤ h'.fail b) : Counted h' := by
  refine ⟨fun c hcl => ?_,fun c hcl => ?_,fun c hcl => ?_⟩ <;> rw [hfixed.1] at hcl <;>
    by_cases hcb : c = b
  · rw [hcb]
    exact hblank
  · rw [(hoff c hcb).1, (hoff c hcb).2.1, (hoff c hcb).2.2]
    exact hc.blank c hcl
  · rw [hcb]
    exact hbelow
  · rw [(hoff c hcb).2.1, (hoff c hcb).2.2, hfixed.2]
    exact hc.below c hcl
  · rw [hcb]
    exact hreached
  · rw [(hoff c hcb).2.1, (hoff c hcb).2.2, hfixed.2]
    exact hc.reached c hcl

theorem reset_self {h : Hosts} {b : ℕ} : (reset h b).fail b = 0 ∧ (reset h b).deadline b = 0 :=
  ⟨Function.update_self _ _ _,Function.update_self _ _ _⟩

theorem reset_off {c : ℕ} (hcb : c ≠ b) :
    (reset h b).fail c = h.fail c ∧ (reset h b).deadline c = h.deadline c :=
  ⟨Function.update_of_ne hcb _ _,Function.update_of_ne hcb _ _⟩

theorem strike_off {c : ℕ} (hcb : c ≠ b) :
    (strike h b now).fail c = h.fail c ∧ (strike h b now).deadline c = h.deadline c := by
  apply And.intro (Function.update_of_ne hcb _ _)
  show (if _ then _ else _ : ℕ → ℕ) c = h.deadline c
  split_ifs
  · exact Function.update_of_ne hcb _ _
  · rfl

theorem counted_reset (hc : Counted h) (hpos : 0 < h.threshold) : Counted (reset h b) := by
  obtain ⟨hfail,hdead⟩ := reset_self
  refine counted_at (b := b) hc ⟨rfl,rfl⟩ (fun c hcb => ⟨rfl,reset_off hcb⟩)
    (fun _ => ⟨hfail,hdead⟩) (fun _ => ?_) (fun hd => absurd hdead hd)
  rw [hfail]
  exact ⟨Int32.le_refl 0,hpos⟩

theorem counted_seated (hc : Counted h) (hpos : 0 < h.threshold)
    (hs : Seated h p now b h') : Counted h' := by
  cases hs with
  | own hb => exact hc
  | taken hb hspare habsent =>
    have hr := counted_reset (b := b) hc hpos
    refine ⟨fun c hcl hkey => ?_,hr.below,hr.reached⟩
    by_cases hcb : c = b
    · rw [hcb] at hkey
      exact absurd ((Function.update_self _ _ _).symm.trans hkey) (hostHash_ne_zero p)
    · exact hr.blank c hcl ((Function.update_of_ne hcb _ _).symm.trans hkey)

theorem lt_maxValue {a b : Int32} (h : a < b) : a < Int32.maxValue := by
  apply Int32.lt_of_lt_of_le h
  apply Int32.le_iff_toInt_le.mpr
  have := Int32.toInt_lt b
  have hmax : Int32.maxValue.toInt = 2147483647 := by decide
  omega

theorem counted_strike (hc : Counted h) (hdur : 0 < h.duration) (hb : b < h.slots)
    (hkey : h.key b ≠ 0) (hdead : h.deadline b = 0) : Counted (strike h b now) := by
  obtain ⟨hlow,hhigh⟩ := hc.below b hb hdead
  have hsucc := DaemonCaps.toInt_succ (lt_maxValue hhigh)
  have hlow' := Int32.le_iff_toInt_le.mp hlow
  have hone : 0 ≤ h.fail b+1 := by
    apply Int32.le_iff_toInt_le.mpr
    omega
  have hnew : (strike h b now).fail b = h.fail b+1 := Function.update_self _ _ _
  refine counted_at (b := b) hc ⟨rfl,rfl⟩ (fun c hcb => ⟨rfl,strike_off hcb⟩)
    (fun hk => absurd hk hkey) ?_ ?_ <;> rw [hnew] <;> simp only [strike] <;>
    split_ifs with hle <;> intro hd
  · rw [Function.update_self] at hd
    omega
  · exact ⟨hone,Int32.not_le.mp hle⟩
  · exact hle
  · exact absurd hdead hd

theorem counted_move (hc : Counted h) (hpos : 0 < h.threshold) (hdur : 0 < h.duration)
    (hclear : ∀ p seen now, op = .authRecordFailure (some p) seen now → Clear h p)
    (hm : Move h op h') : Counted h' := by
  cases hm with
  | stay op hop => exact hc
  | register slot module p now b h' hs => exact counted_seated hc hpos hs
  | expire p seen now b hb hdue | forgive p now b hb => exact counted_reset hc hpos
  | fail p seen now b h₁ hs =>
    have hb := seated_holds hs
    obtain ⟨_,_,hd⟩ := seated_fixed hs
    apply counted_strike (counted_seated hc hpos hs) (hd ▸ hdur) hb.1
    · rw [hb.2]
      exact hostHash_ne_zero p
    · exact seated_clear hs (hclear p seen now rfl)

theorem locked_seated {q : Peer} (hl : Locked h p u) (hnow : now < u)
    (hs : Seated h q now b h') : Locked h' p u := by
  cases hs with
  | own hb => exact hl
  | taken hb hspare habsent =>
    obtain ⟨c,hc,hd⟩ := hl
    have hcb : c ≠ b := by
      intro heq
      rw [heq] at hd
      omega
    refine ⟨c,⟨hc.1,?_⟩,?_⟩
    · exact (Function.update_of_ne hcb _ _).trans hc.2
    · exact (Function.update_of_ne hcb _ _).trans hd

theorem kept_refl {h : Hosts} {p : Peer} : Kept h h p := fun _ => ⟨Iff.rfl,fun _ => ⟨rfl,rfl⟩⟩

theorem kept_reset (hb : ¬ Holds h p b) : Kept h (reset h b) p :=
  fun _ => ⟨Iff.rfl,fun hc => reset_off fun heq => hb (heq ▸ hc)⟩

theorem kept_strike (hb : ¬ Holds h p b) : Kept h (strike h b now) p :=
  fun _ => ⟨Iff.rfl,fun hc => strike_off fun heq => hb (heq ▸ hc)⟩

theorem locked_kept (hl : Locked h p u) (hk : Kept h h' p) : Locked h' p u := by
  obtain ⟨b,hb,hd⟩ := hl
  exact ⟨b,(hk b).1.mpr hb,((hk b).2 hb).2.trans hd⟩

theorem locked_move (hl : Locked h p u) (hm : Move h op h')
    (hread : ∀ t ∈ op.readings, t < u) (hunique : Unique h)
    (hsuccess : ∀ n, op ≠ .authRecordSuccess (some p) n)
    (hfail : ∀ seen n, op ≠ .authRecordFailure (some p) seen n)
    (hkeys : ∀ q, op.peer = some q → hostHash q = hostHash p → q = p) : Locked h' p u := by
  cases hm with
  | stay op hop => exact hl
  | register slot module q now b h' hs =>
    exact locked_seated hl (hread now List.mem_cons_self) hs
  | expire q seen now b hb hdue =>
    refine locked_kept hl (kept_reset fun hpb => ?_)
    obtain ⟨c,hc,hd⟩ := hl
    have hnow : now < u := hread now (List.mem_cons_of_mem _ List.mem_cons_self)
    rw [hunique p c b hc hpb] at hd
    omega
  | forgive q now b hb =>
    refine locked_kept hl (kept_reset fun hpb => ?_)
    exact hsuccess now (by rw [hkeys q rfl (hb.2.symm.trans hpb.2)])
  | fail q seen now b h₁ hs =>
    refine locked_kept (locked_seated hl (hread seen List.mem_cons_self) hs)
      (kept_strike fun hpb => ?_)
    exact hfail seen now (by rw [hkeys q rfl ((seated_holds hs).2.symm.trans hpb.2)])

theorem locks_move (hm : Move h (.authRecordFailure (some p) seen now) h')
    (hclear : Clear h p) (hunique : Unique h') (hb : Holds h' p b) (hd : now < h'.deadline b) :
    h'.deadline b = now+h.duration := by
  cases hm with
  | stay op hop => exact absurd hb (hop p b rfl)
  | fail p seen now c h₁ hs =>
    have hc : Holds (strike h₁ c now) p c := ⟨(seated_holds hs).1,(seated_holds hs).2⟩
    have hbc := hunique p b c hb hc
    subst hbc
    obtain ⟨_,_,hdur⟩ := seated_fixed hs
    have hzero := seated_clear hs hclear
    simp only [strike] at hd ⊢
    split_ifs at hd ⊢ with hle
    · rw [Function.update_self, hdur]
    · omega

theorem fresh_reset (hunique : Unique h) (hb : Holds h p b) : Fresh (reset h b) p := by
  intro c hc
  rw [hunique p c b hc hb]
  exact Function.update_self _ _ _

theorem seated_record {q : Peer} (hunique : Unique h)
    (hs : Seated h q now b h') : Kept h h' p ∨ Fresh h' p := by
  cases hs with
  | own hb => exact .inl kept_refl
  | taken hb hspare habsent =>
    by_cases hqp : hostHash q = hostHash p
    · right
      intro c hc
      by_cases hcb : c = b
      · rw [hcb]
        exact Function.update_self _ _ _
      · have hold : h.key c = hostHash p := (Function.update_of_ne hcb _ _).symm.trans hc.2
        exact absurd ⟨hc.1,hold.trans hqp.symm⟩ (habsent c)
    · have hne : ∀ c, Holds (seat h q b) p c → c ≠ b := by
        intro c hc heq
        rw [heq] at hc
        have hkey : Function.update h.key b (hostHash q) b = hostHash p := hc.2
        rw [Function.update_self] at hkey
        exact hqp hkey
      by_cases hpb : Holds h p b
      · right
        intro c hc
        have hold : h.key c = hostHash p := (Function.update_of_ne (hne c hc) _ _).symm.trans hc.2
        exact absurd (hunique p c b ⟨hc.1,hold⟩ hpb) (hne c hc)
      · left
        intro c
        constructor
        · constructor
          · intro hc
            exact ⟨hc.1,(Function.update_of_ne (hne c hc) _ _).symm.trans hc.2⟩
          · intro hc
            have hcb : c ≠ b := fun heq => hpb (heq ▸ hc)
            exact ⟨hc.1,(Function.update_of_ne hcb _ _).trans hc.2⟩
        · intro hc
          have hcb : c ≠ b := fun heq => hpb (heq ▸ hc)
          exact ⟨Function.update_of_ne hcb _ _,Function.update_of_ne hcb _ _⟩

theorem record_move (hm : Move h op h') (hunique : Unique h)
    (hfail : ∀ seen n, op ≠ .authRecordFailure (some p) seen n)
    (hkeys : ∀ q, op.peer = some q → hostHash q = hostHash p → q = p) :
    Kept h h' p ∨ Fresh h' p := by
  cases hm with
  | stay op hop => exact .inl kept_refl
  | register slot module q now b h' hs => exact seated_record hunique hs
  | expire q seen now b hb hdue | forgive q now b hb =>
    by_cases hpb : Holds h p b
    · exact .inr (fresh_reset hunique hpb)
    · exact .inl (kept_reset hpb)
  | fail q seen now b h₁ hs =>
    have hpb : ¬ Holds h₁ p b := by
      intro hpb
      exact hfail seen now (by rw [hkeys q rfl ((seated_holds hs).2.symm.trans hpb.2)])
    have hstrike : Kept h₁ (strike h₁ b now) p := kept_strike hpb
    rcases seated_record hunique hs with hkept | hfresh
    · left
      intro c
      obtain ⟨hiff,hsame⟩ := hkept c
      obtain ⟨hiff',hsame'⟩ := hstrike c
      apply And.intro (hiff'.trans hiff)
      intro hc
      obtain ⟨hf,hd⟩ := hsame hc
      obtain ⟨hf',hd'⟩ := hsame' (hiff.mpr hc)
      exact ⟨hf'.trans hf,hd'.trans hd⟩
    · right
      intro c hc
      obtain ⟨hiff',hsame'⟩ := hstrike c
      exact (hsame' (hiff'.mp hc)).1.trans (hfresh c (hiff'.mp hc))

theorem success_move {n : ℕ} (hm : Move h (.authRecordSuccess (some p) n) h')
    (hunique : Unique h) : Fresh h' p := by
  cases hm with
  | stay op hop =>
    intro b hb
    exact absurd hb (hop p b rfl)
  | forgive p n b hb => exact fresh_reset hunique hb

theorem failure_move (hm : Move h (.authRecordFailure (some p) seen now) h')
    (hc : Counted h) (hclear : Clear h p) (hunique : Unique h') (hb : Holds h' p b) :
    (h'.fail b).toInt = 1 ∨ Holds h p b ∧ (h'.fail b).toInt = (h.fail b).toInt+1 := by
  cases hm with
  | stay op hop => exact absurd hb (hop p b rfl)
  | fail p seen now c h₁ hs =>
    have hc' : Holds (strike h₁ c now) p c := ⟨(seated_holds hs).1,(seated_holds hs).2⟩
    have hbc := hunique p b c hb hc'
    subst hbc
    have hnew : (strike h₁ b now).fail b = h₁.fail b+1 := Function.update_self _ _ _
    rw [hnew]
    cases hs with
    | own hb =>
      right
      have hlt := (hc.below b hb.1 (hclear b hb)).2
      exact ⟨hb,DaemonCaps.toInt_succ (lt_maxValue hlt)⟩
    | taken hb hspare habsent =>
      left
      have hzero : (seat h p b).fail b = 0 := Function.update_self _ _ _
      rw [hzero]
      decide

end Moves

/-! ## Histories -/

def hostsAt (cap : ℕ → Int32) (d : Daemon) (ops : List Operation) : Hosts :=
  hostsOf (run cap d ops).registry

/-- The clock goes forward, sources have different keys, and a failure is recorded
only right after its source was found not to be locked. -/
structure Proper (cap : ℕ → Int32) (d : Daemon) (ops : List Operation) : Prop where
  clock : ClockForward ops
  keys : DistinctKeys ops
  asked : ∀ before p seen now after,
    ops = before++Operation.authRecordFailure (some p) seen now::after →
    ∃ earlier seen' now', before = earlier++[.authLocked (some p) seen' now'] ∧
      (daemonLimitsAuthLocked (run cap d earlier).registry (some p) seen' now').1 = none

structure Ready (d : Daemon) : Prop where
  table : Table d.registry
  counted : Counted (hostsOf d.registry)
  lockout : d.registry.lockout = true

section Runs
variable {cap : ℕ → Int32} {d : Daemon}

theorem Ready.threshold (h : Ready d) : 0 < (hostsOf d.registry).threshold := by
  have hl := h.lockout
  simp only [Registry.lockout, lockoutSet, Bool.and_eq_true, decide_eq_true_eq] at hl
  exact hl.1

theorem Ready.duration (h : Ready d) : 0 < (hostsOf d.registry).duration := by
  have hl := h.lockout
  simp only [Registry.lockout, lockoutSet, Bool.and_eq_true, decide_eq_true_eq] at hl
  have hpos := Int32.lt_iff_toInt_lt.mp hl.2
  rw [Int32.toInt_zero] at hpos
  show 0 < d.registry.lockoutDurationSec.toInt.toNat
  omega

variable {ops : List Operation}

theorem Proper.initial {rest : List Operation} (h : Proper cap d (ops++rest)) :
    Proper cap d ops := by
  constructor
  · have hc := h.clock
    unfold ClockForward at hc ⊢
    rw [List.flatMap_append] at hc
    exact (List.pairwise_append.mp hc).1
  · intro p hp q hq
    apply h.keys p _ q
    · unfold peers at hq ⊢
      rw [List.filterMap_append]
      exact List.mem_append_left _ hq
    · unfold peers at hp ⊢
      rw [List.filterMap_append]
      exact List.mem_append_left _ hp
  · intro before p seen now after hsplit
    exact h.asked before p seen now (after++rest) (by rw [hsplit, List.append_assoc]; rfl)

theorem clear_authLocked {r : Registry} (ht : Table r) (hlock : r.lockout = true) {p : Peer}
    (hnone : (daemonLimitsAuthLocked r (some p) seen now).1 = none) :
    Clear (hostsOf (daemonLimitsAuthLocked r (some p) seen now).2) p := by
  rcases authLocked_cases ht hlock with ⟨b,_,_,heq⟩ | ⟨_,⟨b,hb,_,heq⟩ | ⟨hzero,heq⟩⟩
  · rw [heq] at hnone
    cases hnone
  · rw [heq]
    intro c hc
    rw [unique_hostsOf ht p c b hc hb]
    exact Function.update_self _ _ _
  · rw [heq]
    exact hzero

theorem lockout_run (ht : Table d.registry) {ops : List Operation} :
    (run cap d ops).registry.lockout = d.registry.lockout := by
  induction ops generalizing d with
  | nil => rfl
  | cons op ops ih =>
    have hc := @step_change cap d ht op
    exact (ih (table_change ht hc)).trans (change_fixed hc).2.2.2.2

variable {before after : List Operation}

theorem clear_asked {p : Peer} (hr : Ready d) (h : Proper cap d ops)
    (hsplit : ops = before++.authRecordFailure (some p) seen now::after) :
    Clear (hostsAt cap d before) p := by
  obtain ⟨earlier,seen',now',hbefore,hnone⟩ := h.asked before p seen now after hsplit
  have hc := clear_authLocked (table_run hr.table earlier)
    ((lockout_run hr.table).trans hr.lockout) hnone
  unfold hostsAt
  rw [hbefore, run_concat]
  exact hc

theorem clear_next {op : Operation} (hr : Ready d)
    (h : Proper cap d (ops++[op])) (p : Peer) (seen now : ℕ)
    (hop : op = .authRecordFailure (some p) seen now) : Clear (hostsAt cap d ops) p :=
  clear_asked hr h (by rw [hop])

theorem ready_run (hr : Ready d) {ops : List Operation} (h : Proper cap d ops) :
    Ready (run cap d ops) := by
  induction ops using List.reverseRecOn with
  | nil => exact hr
  | append_singleton ops op ih =>
    have hops := ih h.initial
    rw [run_concat]
    have hm := step_move cap hops.table hops.counted hops.lockout op
    have hc := @step_change cap _ hops.table op
    exact ⟨table_change hops.table hc,
      counted_move hops.counted hops.threshold hops.duration (clear_next hr h) hm,
      (change_fixed hc).2.2.2.2.trans hops.lockout⟩

theorem move_run (hr : Ready d) {op : Operation} (h : Proper cap d (ops++[op])) :
    Move (hostsAt cap d ops) op (hostsAt cap d (ops++[op])) := by
  have hops := ready_run hr h.initial
  unfold hostsAt
  rw [run_concat]
  exact step_move cap hops.table hops.counted hops.lockout op

theorem fixed_run (hr : Ready d) (h : Proper cap d ops) :
    (hostsAt cap d ops).threshold = (hostsOf d.registry).threshold ∧
      (hostsAt cap d ops).duration = (hostsOf d.registry).duration := by
  induction ops using List.reverseRecOn with
  | nil => exact ⟨rfl,rfl⟩
  | append_singleton ops op ih =>
    obtain ⟨_,hthr,hdur⟩ := move_fixed (move_run hr h)
    exact ⟨hthr.trans (ih h.initial).1,hdur.trans (ih h.initial).2⟩

theorem unique_run (hr : Ready d) {ops : List Operation} : Unique (hostsAt cap d ops) :=
  unique_hostsOf (table_run hr.table ops)

theorem Proper.key_eq {op op' : Operation} {p q : Peer}
    (h : Proper cap d ops) (hop : op ∈ ops) (hop' : op' ∈ ops) (hp : op.peer = some p)
    (hq : op'.peer = some q) (hkey : hostHash q = hostHash p) : q = p :=
  h.keys q (List.mem_filterMap.mpr ⟨op',hop',hq⟩) p (List.mem_filterMap.mpr ⟨op,hop,hp⟩) hkey

theorem Proper.read_le {rest : List Operation} {op : Operation}
    (h : Proper cap d (ops++op::rest)) {t : ℕ} (ht : t ∈ ops.flatMap Operation.readings)
    (hu : u ∈ op.readings) : t ≤ u := by
  have hc := h.clock
  unfold ClockForward at hc
  rw [List.flatMap_append] at hc
  apply (List.pairwise_append.mp hc).2.2 t ht u
  exact List.mem_append_left _ hu

def LocksAt (h : Hosts) (p : Peer) (t : ℕ) : Prop := ∃ b, Holds h p b ∧ t < h.deadline b

theorem lock_persists (hr : Ready d) {mid : List Operation} {p : Peer} {t₀ : ℕ}
    (h : Proper cap d (before++.authRecordFailure (some p) seen t₀::mid))
    (hlock : LocksAt (hostsAt cap d (before++[.authRecordFailure (some p) seen t₀])) p t₀)
    (hsuccess : ∀ n, Operation.authRecordSuccess (some p) n ∉ mid)
    (hread : ∀ t ∈ mid.flatMap Operation.readings, t < t₀+(hostsOf d.registry).duration) :
    Locked (hostsAt cap d (before++.authRecordFailure (some p) seen t₀::mid)) p
      (t₀+(hostsOf d.registry).duration) := by
  induction mid using List.reverseRecOn with
  | nil =>
    obtain ⟨b,hb,hd⟩ := hlock
    have hm := move_run hr h
    have heq := locks_move hm (clear_asked hr h rfl) (unique_run hr) hb hd
    rw [(fixed_run hr h.initial).2] at heq
    exact ⟨b,hb,heq⟩
  | append_singleton mid op ih =>
    have hsplit : before++Operation.authRecordFailure (some p) seen t₀::(mid++[op]) =
        (before++.authRecordFailure (some p) seen t₀::mid)++[op] := by
      rw [List.append_assoc]
      rfl
    rw [hsplit] at h ⊢
    have hl := ih h.initial (fun n hn => hsuccess n (List.mem_append_left _ hn)) (by
      intro t ht
      apply hread
      rw [List.flatMap_append]
      exact List.mem_append_left _ ht)
    have hopRead : ∀ t ∈ op.readings, t < t₀+(hostsOf d.registry).duration := by
      intro t ht
      apply hread
      rw [List.flatMap_append]
      exact List.mem_append_right _ (by simpa using ht)
    apply locked_move hl (move_run hr h) hopRead (unique_run hr)
    · intro n hn
      exact hsuccess n (by rw [hn]; simp)
    · intro seen' n hn
      -- The source was just found not to be locked.
      obtain ⟨b,hb,hd⟩ := hl
      have hzero := clear_next hr h p seen' n hn b hb
      have hpos := hr.duration
      omega
    · intro q hq hkey
      have hfail : Operation.authRecordFailure (some p) seen t₀ ∈
          before++.authRecordFailure (some p) seen t₀::mid++[op] := by simp
      have hop : op ∈ before++Operation.authRecordFailure (some p) seen t₀::mid++[op] := by simp
      exact h.key_eq hfail hop rfl hq hkey

def isFailure (p : Peer) : Operation → Bool
  | .authRecordFailure peer _ _ => decide (peer = some p)
  | _ => false

def failures (p : Peer) (ops : List Operation) : ℕ := ops.countP (isFailure p)

theorem split_concat {α : Type} {ops before after : List α} {op x : α}
    (h : ops++[op] = before++x::after) :
    (after = [] ∧ before = ops ∧ x = op) ∨ ∃ rest, after = rest++[op] ∧ ops = before++x::rest := by
  rcases List.eq_nil_or_concat' after with rfl | ⟨rest,y,rfl⟩
  · obtain ⟨hb,hx⟩ := List.append_inj' h rfl
    exact .inl ⟨rfl,hb.symm,(List.cons.inj hx).1.symm⟩
  · rw [← List.cons_append, ← List.append_assoc] at h
    obtain ⟨hb,hx⟩ := List.append_inj' h rfl
    exact .inr ⟨rest,by rw [(List.cons.inj hx).1],hb⟩

/-- The failures that a source's count stands for: none is older than its last
success, nor than the end of a lockout that is over. -/
def Recent (cap : ℕ → Int32) (d : Daemon) (ops : List Operation) (p : Peer) : Prop :=
  ∃ old recent, ops = old++recent ∧
    (∀ b, Holds (hostsAt cap d ops) p b →
      ((hostsAt cap d ops).fail b).toInt ≤ (failures p recent : ℤ)) ∧
    (∀ n, Operation.authRecordSuccess (some p) n ∉ recent) ∧
    ∀ before seen t₀ after, ops = before++Operation.authRecordFailure (some p) seen t₀::after →
      LocksAt (hostsAt cap d (before++[.authRecordFailure (some p) seen t₀])) p t₀ →
      (∀ n, Operation.authRecordSuccess (some p) n ∉ after) →
      Locked (hostsAt cap d ops) p (t₀+(hostsOf d.registry).duration) ∨
        ∀ seen' now', Operation.authRecordFailure (some p) seen' now' ∈ recent →
          t₀+(hostsOf d.registry).duration ≤ seen'

theorem recent_fresh {p : Peer} (h : Fresh (hostsAt cap d ops) p) : Recent cap d ops p := by
  refine ⟨ops,[],(List.append_nil ops).symm,?_,(by simp),fun _ _ _ _ _ _ _ => Or.inr (by simp)⟩
  intro b hb
  rw [h b hb]
  exact show (0 : Int32).toInt ≤ ((0 : ℕ) : ℤ) by decide

theorem recent_kept {op : Operation} {p : Peer} (h : Recent cap d ops p)
    (hkept : Kept (hostsAt cap d ops) (hostsAt cap d (ops++[op])) p)
    (hfail : ∀ seen n, op ≠ .authRecordFailure (some p) seen n)
    (hsuccess : ∀ n, op ≠ .authRecordSuccess (some p) n) : Recent cap d (ops++[op]) p := by
  obtain ⟨old,recent,hsplit,hcount,hclean,hlocks⟩ := h
  refine ⟨old,recent++[op],by rw [hsplit, List.append_assoc],?_,?_,?_⟩
  · intro b hb
    have hb' := (hkept b).1.mp hb
    have hle := hcount b hb'
    rw [((hkept b).2 hb').1]
    unfold failures at hle ⊢
    rw [List.countP_append]
    omega
  · intro n hn
    rcases List.mem_append.mp hn with hn | hn
    · exact hclean n hn
    · exact hsuccess n (List.mem_singleton.mp hn).symm
  · intro before seen t₀ after hops hlock hafter
    rcases split_concat hops with ⟨_,_,hop⟩ | ⟨rest,hrest,hold⟩
    · exact absurd hop.symm (hfail seen t₀)
    · rcases hlocks before seen t₀ rest hold hlock
        (fun n hn => hafter n (by rw [hrest]; exact List.mem_append_left _ hn)) with hl | htimes
      · exact .inl (locked_kept hl hkept)
      · right
        intro seen' now' hmem
        rcases List.mem_append.mp hmem with hmem | hmem
        · exact htimes seen' now' hmem
        · exact absurd (List.mem_singleton.mp hmem).symm (hfail seen' now')

theorem failure_after {p : Peer} {t₀ seen' now' : ℕ} (hr : Ready d)
    (h : Proper cap d (before++.authRecordFailure (some p) seen t₀::after++
      [.authRecordFailure (some p) seen' now']))
    (hlock : LocksAt (hostsAt cap d (before++[.authRecordFailure (some p) seen t₀])) p t₀)
    (hafter : ∀ n, Operation.authRecordSuccess (some p) n ∉ after) :
    t₀+(hostsOf d.registry).duration ≤ seen' := by
  by_contra hlt
  have hl := lock_persists hr h.initial hlock hafter (by
    intro t ht
    have hle : t ≤ seen' := by
      apply h.read_le (u := seen') (t := t)
      · rw [List.flatMap_append, List.flatMap_cons]
        exact List.mem_append_right _ (List.mem_append_right _ ht)
      · exact List.mem_cons_self
    omega)
  obtain ⟨b,hb,hd⟩ := hl
  have hzero := clear_next hr h p seen' now' rfl b hb
  omega

theorem recent_failure {p : Peer} (hr : Ready d)
    (hprop : Proper cap d (ops++[.authRecordFailure (some p) seen now])) (h : Recent cap d ops p) :
    Recent cap d (ops++[.authRecordFailure (some p) seen now]) p := by
  have hm := move_run hr hprop
  have hclear := clear_next hr hprop p seen now rfl
  have hops := ready_run hr hprop.initial
  obtain ⟨old,recent,hsplit,hcount,hclean,hlocks⟩ := h
  refine ⟨old,recent++[.authRecordFailure (some p) seen now],
    by rw [hsplit, List.append_assoc],?_,?_,?_⟩
  · intro b hb
    have hone : failures p [.authRecordFailure (some p) seen now] = 1 := by
      simp [failures, isFailure]
    have hsum : failures p (recent++[.authRecordFailure (some p) seen now]) =
        failures p recent+1 := by
      rw [failures, List.countP_append, ← hone]
      rfl
    rcases failure_move hm hops.counted hclear (unique_run hr) hb with hfirst | ⟨hold,hnext⟩
    · omega
    · have := hcount b hold
      omega
  · intro n hn
    rcases List.mem_append.mp hn with hn | hn
    · exact hclean n hn
    · cases List.mem_singleton.mp hn
  · intro before seen' t₀ after hsplit' hlock hafter
    rcases split_concat hsplit' with ⟨_,hbefore,hop⟩ | ⟨rest,hrest,hold⟩
    · cases hop
      rw [hbefore] at hlock
      obtain ⟨b,hb,hd⟩ := hlock
      have heq := locks_move hm hclear (unique_run hr) hb hd
      rw [(fixed_run hr hprop.initial).2] at heq
      exact .inl ⟨b,hb,heq⟩
    · have hrestClean : ∀ n, Operation.authRecordSuccess (some p) n ∉ rest :=
        fun n hn => hafter n (by rw [hrest]; exact List.mem_append_left _ hn)
      right
      intro seen'' now'' hmem
      rcases List.mem_append.mp hmem with hmem | hmem
      · rcases hlocks before seen' t₀ rest hold hlock hrestClean with hl | htimes
        · obtain ⟨b,hb,hd⟩ := hl
          have hzero := hclear b hb
          omega
        · exact htimes seen'' now'' hmem
      · cases List.mem_singleton.mp hmem
        rw [hold] at hprop
        exact failure_after hr hprop hlock hrestClean

theorem recent_run (hr : Ready d) (hfresh : ∀ p, Fresh (hostsOf d.registry) p)
    (h : Proper cap d ops) {p : Peer}
    (hp : ∀ q ∈ peers ops, hostHash q = hostHash p → q = p) : Recent cap d ops p := by
  induction ops using List.reverseRecOn with
  | nil => exact recent_fresh (hfresh p)
  | append_singleton ops op ih =>
    have hpeers : ∀ q, op.peer = some q → hostHash q = hostHash p → q = p := by
      intro q hq
      apply hp
      unfold peers
      rw [List.filterMap_append]
      exact List.mem_append_right _ (List.mem_filterMap.mpr ⟨op,List.mem_singleton_self op,hq⟩)
    have hrec := ih h.initial (by
      intro q hq
      apply hp
      unfold peers at hq ⊢
      rw [List.filterMap_append]
      exact List.mem_append_left _ hq)
    by_cases hfail : ∃ seen n, op = .authRecordFailure (some p) seen n
    · obtain ⟨seen,n,rfl⟩ := hfail
      exact recent_failure hr h hrec
    have hm := move_run hr h
    by_cases hsuccess : ∃ n, op = .authRecordSuccess (some p) n
    · obtain ⟨n,rfl⟩ := hsuccess
      exact recent_fresh (success_move hm (unique_run hr))
    rcases record_move hm (unique_run hr) (fun seen n heq => hfail ⟨seen,n,heq⟩) hpeers with
      hkept | hnew
    · exact recent_kept hrec hkept (fun seen n heq => hfail ⟨seen,n,heq⟩)
        (fun n heq => hsuccess ⟨n,heq⟩)
    · exact recent_fresh hnew

theorem locked_again (hr : Ready d) {mid : List Operation} {p : Peer} {t₀ s t : ℕ}
    (h : Proper cap d (before++.authRecordFailure (some p) seen t₀::mid++
      .authLocked (some p) s t::after))
    (hlock : LocksAt (hostsAt cap d (before++[.authRecordFailure (some p) seen t₀])) p t₀)
    (hsuccess : ∀ n, Operation.authRecordSuccess (some p) n ∉ mid)
    (hlt : t < t₀+(hostsOf d.registry).duration) :
    LocksAt (hostsAt cap d (before++.authRecordFailure (some p) seen t₀::mid)) p t := by
  have hread : ∀ u ∈ mid.flatMap Operation.readings, u < t₀+(hostsOf d.registry).duration := by
    intro u hu
    have hle : u ≤ t := by
      apply h.read_le (u := t) (t := u)
      · rw [List.flatMap_append, List.flatMap_cons]
        exact List.mem_append_right _ (List.mem_append_right _ hu)
      · exact List.mem_cons_of_mem _ List.mem_cons_self
    omega
  obtain ⟨b,hb,hd⟩ := lock_persists hr h.initial hlock hsuccess hread
  exact ⟨b,hb,by rw [hd]; exact hlt⟩

theorem locked_earned (hr : Ready d) (hfresh : ∀ p, Fresh (hostsOf d.registry) p)
    {p : Peer} {s t : ℕ} (h : Proper cap d (before++.authLocked (some p) s t::after))
    (hlock : LocksAt (hostsAt cap d before) p t) :
    ∃ old recent, before = old++recent ∧
      (hostsOf d.registry).threshold.toInt ≤ (failures p recent : ℤ) ∧
      (∀ n, Operation.authRecordSuccess (some p) n ∉ recent) ∧
      ∀ before' seen t₀ after', before = before'++.authRecordFailure (some p) seen t₀::after' →
        LocksAt (hostsAt cap d (before'++[.authRecordFailure (some p) seen t₀])) p t₀ →
        (∀ n, Operation.authRecordSuccess (some p) n ∉ after') →
        t₀+(hostsOf d.registry).duration ≤ t →
        ∀ seen' now', Operation.authRecordFailure (some p) seen' now' ∈ recent →
          t₀+(hostsOf d.registry).duration ≤ seen' := by
  have hmem : p ∈ peers (before++.authLocked (some p) s t::after) :=
    List.mem_filterMap.mpr ⟨.authLocked (some p) s t,by simp,rfl⟩
  have hp : ∀ q ∈ peers before, hostHash q = hostHash p → q = p := by
    intro q hq
    apply h.keys q _ p hmem
    unfold peers at hq ⊢
    rw [List.filterMap_append]
    exact List.mem_append_left _ hq
  obtain ⟨b,hb,hd⟩ := hlock
  obtain ⟨old,recent,hsplit,hcount,hclean,hlocks⟩ := recent_run hr hfresh h.initial hp
  refine ⟨old,recent,hsplit,?_,hclean,?_⟩
  · have hset : (hostsAt cap d before).deadline b ≠ 0 := by omega
    have hreached := (ready_run hr h.initial).counted.reached b hb.1 hset
    have hle : (hostsAt cap d before).threshold.toInt ≤ ((hostsAt cap d before).fail b).toInt :=
      Int32.le_iff_toInt_le.mp hreached
    rw [(fixed_run hr h.initial).1] at hle
    exact Int.le_trans hle (hcount b hb)
  · intro before' seen t₀ after' hold hlock hafter hover
    rcases hlocks before' seen t₀ after' hold hlock hafter with ⟨b',hb',hd'⟩ | htimes
    · rw [unique_run hr p b' b hb' hb] at hd'
      omega
    · exact htimes

end Runs

/-! ## The lockout laws -/

theorem locksAt_iff {r : Registry} (ht : Table r) (hlock : r.lockout = true) {p : Peer}
    {seen now : ℕ} :
    (daemonLimitsAuthLocked r (some p) seen now).1 ≠ none ↔ LocksAt (hostsOf r) p now := by
  rcases authLocked_cases ht hlock with
    ⟨b,hb,hd,heq⟩ | ⟨hnone,⟨b,hb,hd,_⟩ | ⟨hzero,_⟩⟩
  · rw [heq]
    exact ⟨fun _ => ⟨b,hb,hd⟩,fun _ h => by cases h⟩
  · apply iff_of_false (not_not.mpr hnone)
    rintro ⟨c,hc,hlt⟩
    rw [unique_hostsOf ht p c b hc hb] at hlt
    omega
  · apply iff_of_false (not_not.mpr hnone)
    rintro ⟨c,hc,hlt⟩
    rw [hzero c hc] at hlt
    omega

theorem unlocked_authLocked {r : Registry} (h : r.lockout = false) {peer : Option Peer}
    {seen now : ℕ} : (daemonLimitsAuthLocked r peer seen now).1 = none := by
  unfold daemonLimitsAuthLocked
  rw [h]
  rfl

theorem start_fresh {c : Settings} (p : Peer) : Fresh (hostsOf (start c).registry) p :=
  fun _ _ => rfl

theorem start_ready {c : Settings} (hlock : (start c).registry.lockout = true) :
    Ready (start c) := by
  refine ⟨table_start c,⟨fun _ _ _ => ⟨rfl,rfl⟩,?_,fun _ _ h => absurd rfl h⟩,hlock⟩
  intro b _ _
  have hl := hlock
  simp only [Registry.lockout, lockoutSet, Bool.and_eq_true, decide_eq_true_eq] at hl
  exact ⟨Int32.le_refl 0,hl.1⟩

/-- Lockouts are neither lost nor spurious. A source that a failure has locked is
found locked until its time is over or a success of its own is recorded, whatever
other sources do. A source that is found locked has failed as often as the
threshold since its last success and since the end of every earlier lockout. -/
theorem lockout_lasts_and_is_earned (c : Settings) (cap : ℕ → Int32) (ops : List Operation)
    (h : Proper cap (start c) ops) :
    (∀ before mid after p seen t₀ s t,
      ops = before++.authRecordFailure (some p) seen t₀::(mid++.authLocked (some p) s t::after) →
      (daemonLimitsAuthLocked (run cap (start c)
        (before++[.authRecordFailure (some p) seen t₀])).registry (some p) t₀ t₀).1 ≠ none →
      (∀ n, Operation.authRecordSuccess (some p) n ∉ mid) →
      t < t₀+(start c).registry.lockoutDurationSec.toInt.toNat →
      (daemonLimitsAuthLocked (run cap (start c)
        (before++.authRecordFailure (some p) seen t₀::mid)).registry (some p) s t).1 ≠ none) ∧
    ∀ before after p s t, ops = before++.authLocked (some p) s t::after →
      (daemonLimitsAuthLocked (run cap (start c) before).registry (some p) s t).1 ≠ none →
      ∃ old recent, before = old++recent ∧
        (start c).registry.lockoutThreshold.toInt ≤ (failures p recent : ℤ) ∧
        (∀ n, Operation.authRecordSuccess (some p) n ∉ recent) ∧
        ∀ before' seen t₀ after', before = before'++.authRecordFailure (some p) seen t₀::after' →
          (daemonLimitsAuthLocked (run cap (start c)
            (before'++[.authRecordFailure (some p) seen t₀])).registry (some p) t₀ t₀).1 ≠ none →
          (∀ n, Operation.authRecordSuccess (some p) n ∉ after') →
          t₀+(start c).registry.lockoutDurationSec.toInt.toNat ≤ t →
          ∀ seen' now', Operation.authRecordFailure (some p) seen' now' ∈ recent →
            t₀+(start c).registry.lockoutDurationSec.toInt.toNat ≤ seen' := by
  have ht := table_start c
  cases hlock : (start c).registry.lockout with
  | false =>
    have hnever : ∀ ops peer seen now,
        (daemonLimitsAuthLocked (run cap (start c) ops).registry peer seen now).1 = none :=
      fun ops peer seen now => unlocked_authLocked ((lockout_run ht).trans hlock)
    constructor
    · intro before mid after p seen t₀ s t _ hlocked
      exact absurd (hnever _ _ _ _) hlocked
    · intro before after p s t _ hlocked
      exact absurd (hnever _ _ _ _) hlocked
  | true =>
    have hr := start_ready hlock
    have hiff : ∀ ops p seen now,
        (daemonLimitsAuthLocked (run cap (start c) ops).registry (some p) seen now).1 ≠ none ↔
          LocksAt (hostsAt cap (start c) ops) p now :=
      fun ops p seen now => locksAt_iff (table_run ht ops) ((lockout_run ht).trans hlock)
    constructor
    · intro before mid after p seen t₀ s t hops hlocked hsuccess hlt
      have hsplit : ops = (before++.authRecordFailure (some p) seen t₀::mid)++
          .authLocked (some p) s t::after := by
        rw [hops, List.append_assoc]
        rfl
      rw [hsplit] at h
      exact (hiff _ p s t).mpr (locked_again hr h ((hiff _ p _ _).mp hlocked) hsuccess hlt)
    · intro before after p s t hops hlocked
      rw [hops] at h
      obtain ⟨old,recent,hsplit,hcount,hclean,hlocks⟩ :=
        locked_earned hr start_fresh h ((hiff before p s t).mp hlocked)
      refine ⟨old,recent,hsplit,hcount,hclean,?_⟩
      intro before' seen t₀ after' hold hlock
      exact hlocks before' seen t₀ after' hold ((hiff _ p _ _).mp hlock)

/-- A source fails once, is locked for ten seconds, and asks again. -/
def lockedRun : List Operation :=
  [.authLocked (some DaemonCaps.visitor) 1 1,.authRecordFailure (some DaemonCaps.visitor) 1 1,
    .authLocked (some DaemonCaps.visitor) 5 5]

def lockingSettings : Settings := ⟨16,1,0,1,10⟩

theorem lockedRun_proper : Proper (fun _ => 0) (start lockingSettings) lockedRun where
  clock := by decide
  keys := by
    intro p hp q hq _
    have hpeers : peers lockedRun =
      [DaemonCaps.visitor,DaemonCaps.visitor,DaemonCaps.visitor] := rfl
    rw [hpeers] at hp hq
    simp only [List.mem_cons, List.not_mem_nil, or_false, or_self] at hp hq
    rw [hp, hq]
  asked := by
    intro before p seen now after hsplit
    cases before with
    | nil => cases hsplit
    | cons op before =>
      cases before with
      | nil =>
        cases hsplit
        exact ⟨[],1,1,rfl,by decide +kernel⟩
      | cons op' before =>
        cases before with
        | nil => cases hsplit
        | cons op'' before => simp [lockedRun] at hsplit

theorem visitor_stays_locked :
    (daemonLimitsAuthLocked (run (fun _ => 0) (start lockingSettings)
      [.authLocked (some DaemonCaps.visitor) 1 1,
        .authRecordFailure (some DaemonCaps.visitor) 1 1]).registry
      (some DaemonCaps.visitor) 5 5).1 ≠ none :=
  (lockout_lasts_and_is_earned lockingSettings (fun _ => 0) lockedRun lockedRun_proper).1
    [.authLocked (some DaemonCaps.visitor) 1 1] [] [] DaemonCaps.visitor 1 1 5 5 rfl
    (by decide +kernel) (by simp) (by decide +kernel)

end FastSync.DaemonLockout
