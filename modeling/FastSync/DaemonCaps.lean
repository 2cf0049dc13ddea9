import FastSync.DaemonRuns
import Mathlib.Data.List.Nodup

/-!
# Connection caps

The counters of modules and buckets never fall below the number of registered
slots they stand for, so an admitted connection keeps both caps. A bucket that a
registered slot holds is not free to be taken over. A source that found the table
full was admitted without a bucket, and those slots are not counted.
-/

set_option autoImplicit false

namespace FastSync.DaemonCaps
open DaemonLimits DaemonRuns

/-- The registered slots among the first `n` that carry the tag `x`. -/
def holders (n : ℕ) (state : ℕ → SlotState) (tag : ℕ → Option ℕ) (x : ℕ) : ℕ :=
  (List.range n).countP fun i => decide (state i = .registered) && decide (tag i = some x)

def registeredIn (r : Registry) (m : ℕ) : ℕ := holders r.maxSlots r.slotState r.slotModule m

def registeredOn (r : Registry) (b : ℕ) : ℕ := holders r.maxSlots r.slotState r.slotHost b

def registeredOf (d : Daemon) (p : Peer) : ℕ :=
  (List.range d.registry.maxSlots).countP fun i =>
    decide (d.registry.slotState i = .registered) && decide (d.owner i = some p)

def heldBy (d : Daemon) (p : Peer) : ℕ :=
  (List.range d.registry.maxSlots).countP fun i =>
    decide (d.registry.slotState i = .registered) && decide (d.owner i = some p) &&
      (d.registry.slotHost i).isSome

section Holders
variable {n : ℕ} {state state' : ℕ → SlotState} {tag tag' : ℕ → Option ℕ}

theorem holders_le (n : ℕ) (state : ℕ → SlotState) (tag : ℕ → Option ℕ) (x : ℕ) :
    holders n state tag x ≤ n := by
  exact List.countP_le_length.trans_eq List.length_range

theorem holders_mono {x : ℕ} (h : ∀ i < n, state' i = .registered →
    state i = .registered ∧ tag' i = tag i) : holders n state' tag' x ≤ holders n state tag x := by
  apply List.countP_mono_left
  intro i hi hp
  simp only [Bool.and_eq_true,decide_eq_true_eq] at hp ⊢
  obtain ⟨hs,ht⟩ := h i (List.mem_range.mp hi) hp.1
  exact ⟨hs,by rw [← ht]; exact hp.2⟩

theorem countP_le_succ {p q : ℕ → Bool} {i : ℕ} {l : List ℕ} (hl : l.Nodup)
    (h : ∀ j, p j = true → q j = true ∨ j = i) : l.countP p ≤ l.countP q+1 := by
  induction l with
  | nil => exact Nat.zero_le _
  | cons j l ih =>
    have hcons := List.nodup_cons.mp hl
    by_cases hji : j = i
    · have hle : l.countP p ≤ l.countP q := by
        apply List.countP_mono_left
        intro k hk hp
        rcases h k hp with hq | rfl
        · exact hq
        · exact absurd (hji ▸ hk) hcons.1
      rw [List.countP_cons,List.countP_cons]
      split_ifs <;> omega
    · have hle := ih hcons.2
      have hpq : p j = true → q j = true := fun hp => (h j hp).resolve_right hji
      rw [List.countP_cons,List.countP_cons]
      split_ifs with hp hq
      · omega
      · exact absurd (hpq hp) hq
      · omega
      · omega

theorem holders_join (i x : ℕ) (v : Option ℕ) :
    holders n (Function.update state i .registered) (Function.update tag i v) x ≤
      holders n state tag x+1 := by
  apply countP_le_succ (i := i) List.nodup_range
  intro j hj
  by_cases hji : j = i
  · exact .inr hji
  · rw [Function.update_of_ne hji,Function.update_of_ne hji] at hj
    exact .inl hj

theorem holders_join_other {i x : ℕ} {v : Option ℕ} (hv : v ≠ some x) :
    holders n (Function.update state i .registered) (Function.update tag i v) x ≤
      holders n state tag x := by
  apply List.countP_mono_left
  intro j _ hj
  by_cases hji : j = i
  · rw [hji,Function.update_self,Function.update_self] at hj
    simp [hv] at hj
  · rwa [Function.update_of_ne hji,Function.update_of_ne hji] at hj

end Holders

/-! ## Counters -/

theorem toInt_succ {a : Int32} (h : a < Int32.maxValue) : (a+1).toInt = a.toInt+1 := by
  have hlt := Int32.lt_iff_toInt_lt.mp h
  have hmax : Int32.maxValue.toInt = 2147483647 := by decide
  have hlow := Int32.le_toInt a
  have hone : (1 : Int32).toInt = 1 := by decide
  rw [Int32.toInt_add,hone]
  apply Int.bmod_eq_of_le
  · omega
  · omega

theorem addOne_apply {counters : ℕ → Int32} {bound : ℕ} {tag : Option ℕ} {x : ℕ} (hx : x < bound) :
    addOne counters bound tag x = if tag = some x then counters x+1 else counters x := by
  cases tag with
  | none => simp [addOne]
  | some i =>
    rw [addOne]
    by_cases hix : i = x
    · subst hix
      rw [if_pos hx,Function.update_self,if_pos rfl]
    · rw [if_neg (fun h => hix (Option.some.inj h))]
      split_ifs
      · exact Function.update_of_ne (Ne.symm hix) _ _
      · rfl

def tally (state : ℕ → SlotState) (tag : ℕ → Option ℕ) (bound : ℕ) (counters : ℕ → Int32)
    (i : ℕ) : ℕ → Int32 :=
  if state i ≠ .registered then counters else addOne counters bound (tag i)

theorem recounts_eq {slots : List ℕ} (r : Registry) :
    slots.foldl Registry.recount r = { r with
      moduleActive :=
        slots.foldl (tally r.slotState r.slotModule r.moduleCount) r.moduleActive
      hostActive := slots.foldl (tally r.slotState r.slotHost r.hostSlots) r.hostActive } := by
  induction slots generalizing r with
  | nil => rfl
  | cons i slots ih =>
    have hr : r.recount i = { r with
        moduleActive := tally r.slotState r.slotModule r.moduleCount r.moduleActive i
        hostActive := tally r.slotState r.slotHost r.hostSlots r.hostActive i } := by
      unfold Registry.recount tally
      split_ifs <;> rfl
    rw [List.foldl_cons,ih,hr]
    rfl

theorem tallies_apply {state : ℕ → SlotState} {tag : ℕ → Option ℕ} {bound x : ℕ} (hx : x < bound)
    (slots : List ℕ) (counters : ℕ → Int32) :
    slots.foldl (tally state tag bound) counters x = counters x+Int32.ofNat
      (slots.countP fun i => decide (state i = .registered) && decide (tag i = some x)) := by
  induction slots generalizing counters with
  | nil => simp
  | cons i slots ih =>
    rw [List.foldl_cons,ih,List.countP_cons]
    by_cases hs : state i = .registered
    · have ht : tally state tag bound counters i x =
          if tag i = some x then counters x+1 else counters x := by
        rw [tally,if_neg (by simp [hs]),addOne_apply hx]
      by_cases hi : tag i = some x
      · rw [ht,if_pos hi]
        simp only [hs,hi,decide_true,Bool.and_self,if_true]
        rw [Int32.ofNat_add,Int32.add_assoc,Int32.add_comm 1]
        rfl
      · rw [ht,if_neg hi]
        simp [hi]
    · rw [tally,if_pos hs]
      simp [hs]

theorem toInt_ofNat {k : ℕ} (hk : k ≤ 65536) : (Int32.ofNat k).toInt = k := by
  rw [Int32.toInt_ofNat']
  apply Int.bmod_eq_of_le
  · rw [Int32.size]
    omega
  · rw [Int32.size]
    omega

theorem recompute_eq (r : Registry) :
    ∃ modules hosts, daemonLimitsRecompute r = { r with
        moduleActive := modules
        hostActive := hosts } ∧
      (∀ m < r.moduleCount, modules m = Int32.ofNat (registeredIn r m)) ∧
      ∀ b < r.hostSlots, hosts b = Int32.ofNat (registeredOn r b) := by
  apply Exists.intro _
  apply Exists.intro _
  apply And.intro (recounts_eq _)
  constructor
  · intro m hm
    simp only
    rw [tallies_apply hm,if_pos hm,Int32.zero_add]
    rfl
  · intro b hb
    simp only
    rw [tallies_apply hb,if_pos hb,Int32.zero_add]
    rfl

/-! ## Modules -/

structure ModuleBound (cap : Int32) (m : ℕ) (r : Registry) : Prop where
  counted : (registeredIn r m : ℤ) ≤ (r.moduleActive m).toInt
  capped : r.moduleActive m ≤ cap

theorem ModuleBound.of_le {cap : Int32} {m : ℕ} {r r' : Registry} (h : ModuleBound cap m r)
    (hactive : r'.moduleActive m = r.moduleActive m) (hle : registeredIn r' m ≤ registeredIn r m) :
    ModuleBound cap m r' := by
  have := h.counted
  constructor
  · rw [hactive]
    omega
  · rw [hactive]
    exact h.capped

variable {r₁ : Registry} {peer : Option Peer}

section Modules
variable {cap : ℕ → Int32} {d d' : Daemon} {m : ℕ}

theorem registeredIn_sourced {r : Registry} {now : ℕ} {host : Option ℕ}
    (hs : Sourced r peer now host r₁) :
    r₁.moduleActive = r.moduleActive ∧ r₁.maxSlots = r.maxSlots ∧ r₁.slotState = r.slotState ∧
      r₁.slotModule = r.slotModule ∧ r₁.slotHost = r.slotHost := by
  obtain ⟨_,_,_,_,_,_,hr₁⟩ := sourced_rest hs
  rw [hr₁]
  exact ⟨rfl,rfl,rfl,rfl,rfl⟩

theorem moduleBound_change (hm : m < d.registry.moduleCount) (hslots : d.registry.maxSlots ≤ 65536)
    (hpos : 0 < cap m) (hfit : cap m < Int32.maxValue) (hb : ModuleBound (cap m) m d.registry)
    (h : Change cap d d') : ModuleBound (cap m) m d'.registry := by
  cases h with
  | vacate r' h =>
    obtain ⟨state,pid,modules,hosts,hr⟩ := h.rest
    apply hb.of_le (by rw [hr])
    show holders r'.maxSlots _ _ m ≤ _
    rw [show r'.maxSlots = d.registry.maxSlots by rw [hr]]
    exact holders_mono (fun i _ hi => ⟨(h.kept i hi).1,(h.kept i hi).2.1⟩)
  | recompute =>
    obtain ⟨modules,hosts,hr,hmodules,_⟩ := recompute_eq d.registry
    have hcount := holders_le d.registry.maxSlots d.registry.slotState d.registry.slotModule m
    have hval : (modules m).toInt = registeredIn d.registry m := by
      rw [hmodules m hm]
      exact toInt_ofNat (Nat.le_trans hcount hslots)
    rw [hr]
    apply ModuleBound.mk
    · show (registeredIn d.registry m : ℤ) ≤ (modules m).toInt
      omega
    · have hcap := Int32.le_iff_toInt_le.mp hb.capped
      have := hb.counted
      apply Int32.le_iff_toInt_le.mpr
      show (modules m).toInt ≤ (cap m).toInt
      omega
  | consult peer now host r₁ r' hs ht₁ ha =>
    obtain ⟨_,_,_,hr⟩ := ha
    obtain ⟨_,_,_,_,_,_,hr₁⟩ := sourced_rest hs
    rw [hr,hr₁]
    exact hb.of_le rfl (Nat.le_refl _)
  | enter peer now host r₁ i m' hs ht₁ hi hm' hstate hmodule hhost =>
    obtain ⟨hactive,hn,hst,hmod,_⟩ := registeredIn_sourced hs
    have hcounts : registeredIn (admitted r₁ i m' host) m =
        holders d.registry.maxSlots (Function.update d.registry.slotState i .registered)
          (Function.update d.registry.slotModule i (some m')) m := by
      rw [← hn,← hst,← hmod]
      rfl
    by_cases hmm : m' = m
    · subst hmm
      have hnew : (admitted r₁ i m' host).moduleActive m' = d.registry.moduleActive m'+1 := by
        rw [← hactive]
        exact Function.update_self _ _ _
      have hsucc : (d.registry.moduleActive m'+1).toInt = (d.registry.moduleActive m').toInt+1 :=
        toInt_succ (Int32.lt_of_le_of_lt hb.capped hfit)
      have hjoin := @holders_join d.registry.maxSlots d.registry.slotState d.registry.slotModule
        i m' (some m')
      have := hb.counted
      apply ModuleBound.mk
      · rw [hnew,hsucc,hcounts]
        unfold registeredIn at this
        omega
      · rw [hnew,← hactive]
        exact hmodule hpos
    · apply hb.of_le
      · rw [← hactive]
        exact Function.update_of_ne (Ne.symm hmm) _ _
      · rw [hcounts]
        exact holders_join_other (fun h => hmm (Option.some.inj h))

end Modules

/-! ## Sources -/

structure HostBound (d : Daemon) : Prop where
  counted : ∀ b < d.registry.hostSlots,
    (registeredOn d.registry b : ℤ) ≤ (d.registry.hostActive b).toInt
  capped : 0 < d.registry.perHostCap →
    ∀ b < d.registry.hostSlots, d.registry.hostActive b ≤ d.registry.perHostCap
  owned : ∀ i < d.registry.maxSlots, d.registry.slotState i = .registered →
    ∀ b, d.registry.slotHost i = some b → b < d.registry.hostSlots ∧
      ∃ p, d.owner i = some p ∧ d.registry.hostKey b = hostHash p

def Room (r : Registry) : Prop := ∀ b < r.hostSlots, r.hostActive b < Int32.maxValue

section Hosts
variable {cap : ℕ → Int32} {d d' : Daemon}

section
variable (h : HostBound d) {b : ℕ} (hb : b < d.registry.hostSlots)
include h hb

theorem HostBound.nonneg : 0 ≤ (d.registry.hostActive b).toInt := by
  have := h.counted b hb
  omega

theorem HostBound.unheld (hzero : d.registry.hostActive b = 0) :
    ∀ i < d.registry.maxSlots, d.registry.slotState i = .registered →
      d.registry.slotHost i ≠ some b := by
  have hcount := h.counted b hb
  rw [hzero,Int32.toInt_zero] at hcount
  have hnone : registeredOn d.registry b = 0 := by omega
  intro i hi hstate hhost
  have hfalse := List.countP_eq_zero.mp hnone i (List.mem_range.mpr hi)
  simp [hstate,hhost] at hfalse

end

theorem HostBound.rekey (h : HostBound d) {b : ℕ} {key : UInt64} {count : Int32}
    (hunheld : ∀ i < d.registry.maxSlots, d.registry.slotState i = .registered →
      d.registry.slotHost i ≠ some b)
    (hnonneg : 0 ≤ count.toInt) (hcap : 0 < d.registry.perHostCap → count ≤ d.registry.perHostCap)
    (hsame : r₁.maxSlots = d.registry.maxSlots ∧ r₁.hostSlots = d.registry.hostSlots ∧
      r₁.perHostCap = d.registry.perHostCap ∧ r₁.slotState = d.registry.slotState ∧
      r₁.slotHost = d.registry.slotHost)
    (hkey : r₁.hostKey = Function.update d.registry.hostKey b key)
    (hactive : r₁.hostActive = Function.update d.registry.hostActive b count) :
    HostBound { d with registry := r₁ } := by
  obtain ⟨hn,hslots,hcapEq,hstate,hhost⟩ := hsame
  have hon : ∀ c, registeredOn r₁ c = registeredOn d.registry c := by
    intro c
    unfold registeredOn
    rw [hn,hstate,hhost]
  constructor
  · intro c hc
    simp only [hslots,hon,hactive] at hc ⊢
    by_cases hcb : c = b
    · rw [hcb,Function.update_self]
      have hzero : registeredOn d.registry b = 0 := by
        apply List.countP_eq_zero.mpr
        intro i hi hp
        simp only [Bool.and_eq_true,decide_eq_true_eq] at hp
        exact hunheld i (List.mem_range.mp hi) hp.1 hp.2
      omega
    · rw [Function.update_of_ne hcb]
      exact h.counted c hc
  · intro hpos c hc
    simp only [hslots,hcapEq,hactive] at hpos hc ⊢
    by_cases hcb : c = b
    · rw [hcb,Function.update_self]
      exact hcap hpos
    · rw [Function.update_of_ne hcb]
      exact h.capped hpos c hc
  · intro i hi hreg c hc
    simp only [hn,hstate,hhost,hslots,hkey] at hi hreg hc ⊢
    have hcb : c ≠ b := fun heq => hunheld i hi hreg (heq ▸ hc)
    rw [Function.update_of_ne hcb]
    exact h.owned i hi hreg c hc

theorem reclaimable_inactive {r : Registry} {now b : ℕ}
    (h : hostBucketReclaimable r now b = true) : r.hostActive b = 0 := by
  by_contra hne
  simp [hostBucketReclaimable,hne] at h

theorem hostBound_sourced {now : ℕ} {host : Option ℕ}
    (h : HostBound d) (hs : Sourced d.registry peer now host r₁) :
    HostBound { d with registry := r₁ } ∧
      (∀ b, host = some b → b < r₁.hostSlots ∧ ∃ p, peer = some p ∧ r₁.hostKey b = hostHash p) ∧
      ∀ b, r₁.hostActive b = d.registry.hostActive b ∨ r₁.hostActive b = 0 := by
  rcases hs with ⟨rfl,rfl⟩ | ⟨p,rfl,hs⟩
  · exact ⟨h,(by intro b hb; cases hb),fun b => Or.inl rfl⟩
  cases hs with
  | own b hb hkey =>
    refine ⟨⟨h.counted,h.capped,h.owned⟩,?_,fun b => Or.inl rfl⟩
    intro c hc
    cases hc
    exact ⟨hb,p,rfl,hkey⟩
  | fresh b hb hkey habsent =>
    have hunheld : ∀ i < d.registry.maxSlots, d.registry.slotState i = .registered →
        d.registry.slotHost i ≠ some b := by
      intro i hi hstate hhost
      obtain ⟨_,q,_,hq⟩ := h.owned i hi hstate b hhost
      exact hostHash_ne_zero q (by rw [← hq,hkey])
    refine ⟨h.rekey hunheld (h.nonneg hb) (fun hpos => h.capped hpos b hb)
      ⟨rfl,rfl,rfl,rfl,rfl⟩ rfl (Function.update_eq_self b d.registry.hostActive).symm,?_,
      fun b => Or.inl rfl⟩
    intro c hc
    cases hc
    exact ⟨hb,p,rfl,Function.update_self _ _ _⟩
  | evicted b hb hspare habsent =>
    have hzero := reclaimable_inactive hspare
    refine ⟨h.rekey (h.unheld hb hzero) (show 0 ≤ (0 : Int32).toInt by decide)
      (fun hpos => Int32.le_of_lt hpos) ⟨rfl,rfl,rfl,rfl,rfl⟩ rfl rfl,?_,?_⟩
    · intro c hc
      cases hc
      exact ⟨hb,p,rfl,Function.update_self _ _ _⟩
    · intro c
      by_cases hcb : c = b
      · rw [hcb]
        exact .inr (Function.update_self _ _ _)
      · exact .inl (Function.update_of_ne hcb _ _)
  | full habsent =>
    obtain ⟨warned,hw⟩ := hostWarnTableFull_hosts
    rw [hw]
    exact ⟨⟨h.counted,h.capped,h.owned⟩,(by intro b hb; cases hb),fun b => Or.inl rfl⟩

theorem hostBound_admitted {host : Option ℕ} {i m : ℕ}
    (h : HostBound { d with registry := r₁ })
    (hbucket : ∀ b, host = some b → b < r₁.hostSlots ∧ ∃ p, peer = some p ∧
      r₁.hostKey b = hostHash p)
    (hhost : ∀ b, host = some b → 0 < r₁.perHostCap → r₁.hostActive b+1 ≤ r₁.perHostCap)
    (hroom : Room r₁) : HostBound ⟨admitted r₁ i m host,Function.update d.owner i peer⟩ := by
  have hother : ∀ c, host ≠ some c → joinHost host r₁.hostActive c = r₁.hostActive c := by
    intro c hc
    cases host with
    | none => rfl
    | some b => exact Function.update_of_ne (fun hcb => hc (by rw [hcb])) _ _
  have hself : ∀ c, host = some c → joinHost host r₁.hostActive c = r₁.hostActive c+1 := by
    intro c hc
    rw [hc]
    exact Function.update_self _ _ _
  constructor
  · intro c hc
    show (holders r₁.maxSlots (Function.update r₁.slotState i .registered)
      (Function.update r₁.slotHost i host) c : ℤ) ≤ (joinHost host r₁.hostActive c).toInt
    have hcount : (holders r₁.maxSlots r₁.slotState r₁.slotHost c : ℤ) ≤
        (r₁.hostActive c).toInt := h.counted c hc
    by_cases hch : host = some c
    · have hjoin := @holders_join r₁.maxSlots r₁.slotState r₁.slotHost i c host
      rw [hself c hch,toInt_succ (hroom c hc)]
      omega
    · have hjoin := @holders_join_other r₁.maxSlots r₁.slotState r₁.slotHost i c host hch
      rw [hother c hch]
      omega
  · intro hpos c hc
    show joinHost host r₁.hostActive c ≤ r₁.perHostCap
    by_cases hch : host = some c
    · rw [hself c hch]
      exact hhost c hch hpos
    · rw [hother c hch]
      exact h.capped hpos c hc
  · intro j hj hreg c hc
    show c < r₁.hostSlots ∧ ∃ p, Function.update d.owner i peer j = some p ∧
      r₁.hostKey c = hostHash p
    have hc' : Function.update r₁.slotHost i host j = some c := hc
    by_cases hji : j = i
    · rw [hji,Function.update_self] at hc'
      rw [hji,Function.update_self]
      exact hbucket c hc'
    · have hreg' : Function.update r₁.slotState i .registered j = .registered := hreg
      rw [Function.update_of_ne hji] at hc' hreg'
      rw [Function.update_of_ne hji]
      exact h.owned j hj hreg' c hc'

theorem hostBound_vacates {r' : Registry} (h : HostBound d) (hv : Vacates d.registry r') :
    HostBound { d with registry := r' } := by
  obtain ⟨state,pid,modules,hosts,hr⟩ := hv.rest
  have hn : r'.maxSlots = d.registry.maxSlots := by rw [hr]
  have hslots : r'.hostSlots = d.registry.hostSlots := by rw [hr]
  have hcap : r'.perHostCap = d.registry.perHostCap := by rw [hr]
  have hactive : r'.hostActive = d.registry.hostActive := by rw [hr]
  have hkey : r'.hostKey = d.registry.hostKey := by rw [hr]
  constructor
  · intro b hb
    simp only [hslots,hactive] at hb ⊢
    have hle : registeredOn r' b ≤ registeredOn d.registry b := by
      unfold registeredOn
      rw [hn]
      exact holders_mono (fun i _ hi => ⟨(hv.kept i hi).1,(hv.kept i hi).2.2⟩)
    have := h.counted b hb
    omega
  · intro hpos b hb
    simp only [hslots,hactive,hcap] at hpos hb ⊢
    exact h.capped hpos b hb
  · intro i hi hreg b hb
    simp only [hslots,hn,hkey] at hi hreg hb ⊢
    obtain ⟨hreg',_,hhost⟩ := hv.kept i hreg
    exact h.owned i hi hreg' b (by rw [← hhost,hb])

section
variable (h : HostBound d) (hn : d.registry.maxSlots ≤ 65536)
include h hn

theorem hostBound_recompute :
    HostBound { d with registry := daemonLimitsRecompute d.registry } := by
  obtain ⟨modules,hosts,hr,_,hhosts⟩ := recompute_eq d.registry
  have hval : ∀ b < d.registry.hostSlots, (hosts b).toInt = registeredOn d.registry b := by
    intro b hb
    rw [hhosts b hb]
    exact toInt_ofNat (Nat.le_trans (holders_le _ _ _ b) hn)
  rw [hr]
  constructor
  · intro b hb
    exact Int.le_of_eq (hval b hb).symm
  · intro hpos b hb
    show hosts b ≤ d.registry.perHostCap
    have hcap := Int32.le_iff_toInt_le.mp (h.capped hpos b hb)
    have := h.counted b hb
    have := hval b hb
    apply Int32.le_iff_toInt_le.mpr
    omega
  · exact h.owned

theorem hostBound_change (hroom : Room d.registry) (hc : Change cap d d') : HostBound d' := by
  cases hc with
  | vacate r' hv => exact hostBound_vacates h hv
  | recompute => exact hostBound_recompute h hn
  | consult peer now host r₁ r' hs ht₁ ha =>
    obtain ⟨_,_,_,hr⟩ := ha
    have h₁ := (hostBound_sourced h hs).1
    rw [hr]
    exact ⟨h₁.counted,h₁.capped,h₁.owned⟩
  | enter peer now host r₁ i m hs ht₁ hi hm hstate hmodule hhost =>
    obtain ⟨h₁,hbucket,hactive⟩ := hostBound_sourced h hs
    have hslots : r₁.hostSlots = d.registry.hostSlots := by
      obtain ⟨_,_,_,_,_,_,hr₁⟩ := sourced_rest hs
      rw [hr₁]
    apply hostBound_admitted h₁ hbucket hhost
    intro b hb
    rcases hactive b with heq | heq
    · rw [heq]
      exact hroom b (hslots ▸ hb)
    · rw [heq]
      decide

end

end Hosts

/-! ## Whole runs -/

section Runs
variable {cap : ℕ → Int32} {d : Daemon}

theorem run_fixed (ht : Table d.registry) (ops : List Operation) :
    (run cap d ops).registry.maxSlots = d.registry.maxSlots ∧
      (run cap d ops).registry.moduleCount = d.registry.moduleCount ∧
      (run cap d ops).registry.hostSlots = d.registry.hostSlots ∧
      (run cap d ops).registry.perHostCap = d.registry.perHostCap := by
  induction ops generalizing d with
  | nil => exact ⟨rfl,rfl,rfl,rfl⟩
  | cons op ops ih =>
    have hc := @step_change cap d ht op
    obtain ⟨h₁,h₂,h₃,h₄,_⟩ := change_fixed hc
    obtain ⟨h₁',h₂',h₃',h₄'⟩ := ih (table_change ht hc)
    exact ⟨h₁'.trans h₁,h₂'.trans h₂,h₃'.trans h₃,h₄'.trans h₄⟩

theorem moduleBound_run {m : ℕ} (ht : Table d.registry) (hm : m < d.registry.moduleCount)
    (hn : d.registry.maxSlots ≤ 65536) (hpos : 0 < cap m) (hfit : cap m < Int32.maxValue)
    (hb : ModuleBound (cap m) m d.registry) (ops : List Operation) :
    ModuleBound (cap m) m (run cap d ops).registry := by
  induction ops generalizing d with
  | nil => exact hb
  | cons op ops ih =>
    have hc := @step_change cap d ht op
    obtain ⟨hslots,hmodules,_⟩ := change_fixed hc
    exact ih (table_change ht hc) (hmodules ▸ hm) (hslots ▸ hn)
      (moduleBound_change hm hn hpos hfit hb hc)

/-- No counter of a bucket reaches its largest value on the way. -/
def Roomy (cap : ℕ → Int32) (d : Daemon) (ops : List Operation) : Prop :=
  ∀ before after, ops = before++after → Room (run cap d before).registry

theorem hostBound_run (ht : Table d.registry) (hn : d.registry.maxSlots ≤ 65536)
    (hb : HostBound d) (ops : List Operation) (hroom : Roomy cap d ops) :
    HostBound (run cap d ops) := by
  induction ops generalizing d with
  | nil => exact hb
  | cons op ops ih =>
    have hc := @step_change cap d ht op
    obtain ⟨hslots,_⟩ := change_fixed hc
    apply ih (table_change ht hc) (hslots ▸ hn)
      (hostBound_change hb hn (hroom [] (op::ops) rfl) hc)
    intro before after hsplit
    exact hroom (op::before) after (by rw [hsplit]; rfl)

theorem HostBound.room (h : HostBound d) (hpos : 0 < d.registry.perHostCap)
    (hfit : d.registry.perHostCap < Int32.maxValue) : Room d.registry :=
  fun b hb => Int32.lt_of_le_of_lt (h.capped hpos b hb) hfit

theorem hostBound_run_capped (ht : Table d.registry) (hn : d.registry.maxSlots ≤ 65536)
    (hb : HostBound d) (hpos : 0 < d.registry.perHostCap)
    (hfit : d.registry.perHostCap < Int32.maxValue) (ops : List Operation) :
    HostBound (run cap d ops) := by
  induction ops generalizing d with
  | nil => exact hb
  | cons op ops ih =>
    have hc := @step_change cap d ht op
    obtain ⟨hslots,_,_,hcap,_⟩ := change_fixed hc
    exact ih (table_change ht hc) (hslots ▸ hn)
      (hostBound_change hb hn (hb.room hpos hfit) hc) (hcap.symm ▸ hpos) (hcap.symm ▸ hfit)

theorem heldBy_le (ht : Table d.registry) (hb : HostBound d) (p : Peer)
    (hpos : 0 < d.registry.perHostCap) : (heldBy d p : ℤ) ≤ d.registry.perHostCap.toInt := by
  by_cases hex : ∃ i < d.registry.maxSlots, ∃ b, d.registry.slotState i = .registered ∧
      d.owner i = some p ∧ d.registry.slotHost i = some b
  · obtain ⟨i,hi,b,hreg,hown,hhost⟩ := hex
    obtain ⟨hbl,q,hq,hkey⟩ := hb.owned i hi hreg b hhost
    rw [hown] at hq
    cases hq
    have hle : heldBy d p ≤ registeredOn d.registry b := by
      apply List.countP_mono_left
      intro j hj hp
      simp only [Bool.and_eq_true,decide_eq_true_eq] at hp ⊢
      obtain ⟨⟨hregj,hownj⟩,hsome⟩ := hp
      obtain ⟨c,hc⟩ := Option.isSome_iff_exists.mp hsome
      obtain ⟨hcl,q,hq,hkeyc⟩ := hb.owned j (List.mem_range.mp hj) hregj c hc
      rw [hownj] at hq
      cases hq
      have hbc : b = c := ht.chained.unique b hbl c hcl
        (by rw [hkey]; exact hostHash_ne_zero p) (by rw [hkey,hkeyc])
      exact ⟨hregj,by rw [hc,hbc]⟩
    have hcap := Int32.le_iff_toInt_le.mp (hb.capped hpos b hbl)
    have := hb.counted b hbl
    omega
  · have hzero : heldBy d p = 0 := by
      apply List.countP_eq_zero.mpr
      intro j hj hp
      simp only [Bool.and_eq_true,decide_eq_true_eq] at hp
      obtain ⟨c,hc⟩ := Option.isSome_iff_exists.mp hp.2
      exact hex ⟨j,List.mem_range.mp hj,c,hp.1.1,hp.1.2,hc⟩
    have := Int32.lt_iff_toInt_lt.mp hpos
    rw [Int32.toInt_zero] at this
    omega

theorem owner_run {ops : List Operation} {i : ℕ} {p : Peer}
    (h : (run cap d ops).owner i = some p) : d.owner i = some p ∨ p ∈ peers ops := by
  induction ops generalizing d with
  | nil => exact .inl h
  | cons op ops ih =>
    rcases ih h with hown | hmem
    · by_cases hsame : (step cap d op).owner i = d.owner i
      · exact .inl (hsame ▸ hown)
      · cases op with
        | register slot module peer now =>
          simp only [step] at hown hsame
          split_ifs at hown hsame with hok
          · by_cases his : i = slot.toInt.toNat
            · rw [his,Function.update_self] at hown
              exact .inr (by simp [peers,Operation.peer,hown])
            · exact absurd (Function.update_of_ne his _ _) hsame
          · exact absurd rfl hsame
        | _ => exact absurd rfl hsame
    · right
      unfold peers at hmem ⊢
      rw [List.filterMap_cons]
      split
      · exact hmem
      · exact List.mem_cons_of_mem _ hmem

end Runs

section Start
variable (c : Settings)

theorem start_slots : (start c).registry.maxSlots ≤ 65536 := by
  show (clamp minSlots maxSlotCount c.maxSlots).toInt.toNat ≤ 65536
  unfold clamp
  have hmax : maxSlotCount.toInt = 65536 := by decide
  split_ifs with hlow hhigh
  · decide
  · rw [hmax]
    decide
  · have := Int32.lt_iff_toInt_lt.not.mp hhigh
    omega

theorem start_cap (hpos : 0 < c.perHostCap) : (start c).registry.perHostCap = c.perHostCap :=
  if_neg (fun h => Int32.lt_asymm h hpos)

theorem start_unregistered (tag : ℕ → Option ℕ) (n x : ℕ) :
    holders n (start c).registry.slotState tag x = 0 := by
  apply List.countP_eq_zero.mpr
  intro i _ hp
  simp [start,daemonLimitsCreate] at hp

theorem start_hostBound : HostBound (start c) where
  counted := by
    intro b _
    rw [registeredOn,start_unregistered]
    exact show ((0 : ℕ) : ℤ) ≤ (0 : Int32).toInt by decide
  capped := fun hpos _ _ => Int32.le_of_lt hpos
  owned := by
    intro i _ hreg
    cases hreg

theorem start_moduleBound (cap : Int32) (m : ℕ) (hpos : 0 < cap) :
    ModuleBound cap m (start c).registry where
  counted := by
    rw [registeredIn,start_unregistered]
    exact show ((0 : ℕ) : ℤ) ≤ (0 : Int32).toInt by decide
  capped := Int32.le_of_lt hpos

theorem le_of_maxValue {k : ℕ} {a : Int32} (hk : k ≤ 65536) (ha : ¬ a < Int32.maxValue) :
    (k : ℤ) ≤ a.toInt := by
  have hmax : Int32.maxValue.toInt = 2147483647 := by decide
  have := Int32.lt_iff_toInt_lt.not.mp ha
  omega

section
variable {cap : ℕ → Int32} {ops : List Operation}

theorem registeredIn_run {m : ℕ} (hpos : 0 < cap m)
    (hm : m < (run cap (start c) ops).registry.moduleCount) :
    (registeredIn (run cap (start c) ops).registry m : ℤ) ≤ (cap m).toInt := by
  have ht := table_start c
  have hn := start_slots c
  obtain ⟨hslots,hmodules,_⟩ := @run_fixed cap _ ht ops
  by_cases hfit : cap m < Int32.maxValue
  · have hb := moduleBound_run ht (hmodules ▸ hm) hn hpos hfit
      (start_moduleBound c (cap m) m hpos) ops
    have hcap := Int32.le_iff_toInt_le.mp hb.capped
    have := hb.counted
    omega
  · -- A cap at the largest value exceeds the number of slots.
    exact le_of_maxValue (Nat.le_trans (holders_le _ _ _ m) (hslots ▸ hn)) hfit

theorem heldBy_run {p : Peer} (hpos : 0 < c.perHostCap) :
    (heldBy (run cap (start c) ops) p : ℤ) ≤ c.perHostCap.toInt := by
  have ht := table_start c
  have hn := start_slots c
  obtain ⟨hslots,_,_,hcap⟩ := @run_fixed cap _ ht ops
  rw [start_cap c hpos] at hcap
  by_cases hfit : c.perHostCap < Int32.maxValue
  · have hb := @hostBound_run_capped cap _ ht hn (start_hostBound c)
      (by rw [start_cap c hpos]; exact hpos) (by rw [start_cap c hpos]; exact hfit) ops
    have hle := heldBy_le (table_run ht ops) hb p (by rw [hcap]; exact hpos)
    rw [hcap] at hle
    exact hle
  · have hle : heldBy (run cap (start c) ops) p ≤ _ := List.countP_le_length
    rw [List.length_range,hslots] at hle
    exact le_of_maxValue (Nat.le_trans hle hn) hfit

theorem hostBound_start
    (hroom : (0 < c.perHostCap ∧ c.perHostCap < Int32.maxValue) ∨ Roomy cap (start c) ops) :
    HostBound (run cap (start c) ops) := by
  have ht := table_start c
  have hn := start_slots c
  have hb := start_hostBound c
  rcases hroom with ⟨hpos,hfit⟩ | hroom
  · exact hostBound_run_capped ht hn hb (by rw [start_cap c hpos]; exact hpos)
      (by rw [start_cap c hpos]; exact hfit) ops
  · exact hostBound_run ht hn hb ops hroom

end

/-- The connection caps on every run. A module keeps its cap. A source keeps the
cap per source on the slots it registered with a bucket; one that came while the
table was full holds slots that no bucket counts. A bucket that a registered slot
holds stays with the source of that slot as long as its counter does not wrap,
which a cap per source below the largest integer ensures. -/
theorem connection_caps (cap : ℕ → Int32) (ops : List Operation) (hkeys : DistinctKeys ops) :
    (∀ m < (run cap (start c) ops).registry.moduleCount, 0 < cap m →
      (registeredIn (run cap (start c) ops).registry m : ℤ) ≤ (cap m).toInt) ∧
    (∀ p, 0 < c.perHostCap → (heldBy (run cap (start c) ops) p : ℤ) ≤ c.perHostCap.toInt) ∧
    ((0 < c.perHostCap ∧ c.perHostCap < Int32.maxValue) ∨ Roomy cap (start c) ops →
      ∀ i < (run cap (start c) ops).registry.maxSlots,
        (run cap (start c) ops).registry.slotState i = .registered →
        ∀ b, (run cap (start c) ops).registry.slotHost i = some b →
          ∃ p, (run cap (start c) ops).owner i = some p ∧
            (run cap (start c) ops).registry.hostKey b = hostHash p ∧
            ∀ q ∈ peers ops, (run cap (start c) ops).registry.hostKey b = hostHash q → q = p) := by
  apply And.intro (fun m hm hpos => registeredIn_run c hpos hm)
  apply And.intro (fun p hpos => heldBy_run c hpos)
  intro hroom i hi hreg b hhost
  obtain ⟨_,p,hown,hkey⟩ := (hostBound_start c hroom).owned i hi hreg b hhost
  refine ⟨p,hown,hkey,fun q hq hq' => ?_⟩
  rcases owner_run hown with hnone | hp
  · cases hnone
  · exact hkeys q hq p hp (by rw [← hq',hkey])

end Start

/-! ## A full table -/

def address (a b c d : UInt8) : Peer := ⟨.inet,[a,b,c,d],rfl⟩

/-- One connection per source, one failure locks for a thousand seconds. -/
def strictSettings : Settings := ⟨16,1,1,1,1000⟩

def visitor : Peer := address 192 168 0 1

/-- Sixty-four sources lock themselves out and fill the table; a visitor comes
twice meanwhile, and once more when the lockouts are over. -/
def crowdedRun : List Operation :=
  (List.range 64).map (fun i => .authRecordFailure (some (address 10 0 0 (UInt8.ofNat i))) 1 1) ++
    [.claimSlot,.register 0 0 (some visitor) 2,.claimSlot,.register 1 0 (some visitor) 2,
      .claimSlot,.register 2 0 (some visitor) 2000]

theorem crowdedRun_keys : DistinctKeys crowdedRun := by
  have h : (peers crowdedRun).all (fun p => (peers crowdedRun).all fun q =>
      decide (hostHash p = hostHash q → p = q)) = true := by decide +kernel
  intro p hp q hq
  exact of_decide_eq_true (List.all_eq_true.mp (List.all_eq_true.mp h p hp) q hq)

/-- A source with a bucket and a cap of one has three registered slots. -/
theorem visitor_exceeds_cap :
    DistinctKeys crowdedRun ∧ ClockForward crowdedRun ∧
      (run (fun _ => 0) (start strictSettings) crowdedRun).registry.perHostCap = 1 ∧
      (run (fun _ => 0) (start strictSettings) crowdedRun).registry.slotHost 2 = some 28 ∧
      (run (fun _ => 0) (start strictSettings) crowdedRun).registry.hostKey 28 =
        hostHash visitor ∧
      registeredOf (run (fun _ => 0) (start strictSettings) crowdedRun) visitor = 3 :=
  ⟨crowdedRun_keys,by decide +kernel⟩

theorem connection_caps_crowded : DistinctKeys crowdedRun ∧
    (heldBy (run (fun _ => 0) (start strictSettings) crowdedRun) visitor : ℤ) ≤
      strictSettings.perHostCap.toInt :=
  ⟨crowdedRun_keys,(connection_caps strictSettings (fun _ => 0) crowdedRun crowdedRun_keys).2.1
    visitor (by decide)⟩

end FastSync.DaemonCaps
