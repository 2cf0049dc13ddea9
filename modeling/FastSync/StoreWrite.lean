import Mathlib.Algebra.Ring.Nat
import FastSync.ByteFile
import Mathlib.Data.List.SplitBy

/-!
# Writing the payload of a file

The descriptor of the file being written, the system calls on it and the loops
over them. What each call answers is taken from a list: a call may fail, be
interrupted or write less than it was asked to.
-/

set_option autoImplicit false

namespace FastSync.StoreWrite
open ByteFile

abbrev Bytes := List UInt8

inductive Reply where
  | ok
  | short (n : ℕ)
  | interrupted
  | failed
  | crossDevice
  | unsupported
deriving DecidableEq, Repr

def accepted : Reply → Bool
  | .ok => true
  | .short _ => true
  | _ => false

/-- An open file: its bytes and its offset, the answers still to come, and the
bytes it held after each change so far, the latest first. -/
structure Handle where
  content : Bytes
  offset : ℕ
  replies : List Reply
  history : List Bytes
deriving DecidableEq, Repr

def Handle.put (h : Handle) (content : Bytes) (offset : ℕ) (replies : List Reply) : Handle :=
  ⟨content,offset,replies,content::h.history⟩

/-- The answer to the next call; when none is left every call fails. -/
def nextReply (replies : List Reply) : Reply × List Reply :=
  match replies with
  | [] => (.failed, [])
  | r::rs => (r, rs)

abbrev Act := Handle → Bool × Handle

def pass : Act := fun h => (true, h)

def andThen (a b : Act) : Act := fun h =>
  let r := a h
  if r.1 then b r.2 else (false, r.2)

def whenever (c : Bool) (a : Act) : Act := if c then a else pass

/-- A call that changes `content` and `offset` as `f` says when it succeeds. -/
def call (f : Bytes × ℕ → Bytes × ℕ) : Act := fun h =>
  let r := nextReply h.replies
  if accepted r.1 then
    let s := f (h.content, h.offset)
    (true, h.put s.1 s.2 r.2)
  else (false, { h with replies := r.2 })

/-- A call that leaves the bytes alone: metadata, `fsync`, `close`. -/
def attempt : Act := call id

def ftruncate (n : ℕ) : Act := call fun s => (resize 0 n s.1, s.2)

def lseekCur (n : ℕ) : Act := call fun s => (s.1, s.2+n)

/-- The rewind whose result the code does not look at. -/
def lseekStart : Act := fun h => (true, (call (fun s => (s.1, 0)) h).2)

/-- Reserves the space by the first of three calls the file system supports. -/
def preallocateFd (n : ℕ) : Act := fun h =>
  let first := nextReply h.replies
  if accepted first.1 then (true, h.put (extend 0 n h.content) h.offset first.2)
  else if first.1 = .unsupported then
    let second := nextReply first.2
    if accepted second.1 then (true, h.put (extend 0 n h.content) h.offset second.2)
    else if second.1 = .unsupported then ftruncate n { h with replies := second.2 }
    else (false, { h with replies := second.2 })
  else (false, { h with replies := first.2 })

def writeLoop : List Reply → Handle → Bytes → Bool × Handle
  | replies, h, [] => (true, { h with replies := replies })
  | [], h, _::_ => (false, { h with replies := [] })
  | r::rs, h, b::bs =>
    match r with
    | .interrupted => writeLoop rs h (b::bs)
    | .ok => (true, h.put (writeAt 0 h.content h.offset (b::bs)) (h.offset+(bs.length+1)) rs)
    | .short n =>
      let k := min (n+1) (bs.length+1)
      writeLoop rs (h.put (writeAt 0 h.content h.offset ((b::bs).take k)) (h.offset+k) rs)
        ((b::bs).drop k)
    | _ => (false, { h with replies := rs })

def writeAll (data : Bytes) : Act := fun h => writeLoop h.replies h data

/-- The maximal runs of zero and of non-zero bytes. -/
def runs (data : Bytes) : List Bytes := data.splitBy fun a b => (a == 0) == (b == 0)

def sparseHoleMin : ℕ := 4096

def isHole (run : Bytes) : Bool := run.head? == some 0 && decide (sparseHoleMin ≤ run.length)

def sparseLoop : List Bytes → Act
  | [] => pass
  | run::rest =>
    andThen (if isHole run then lseekCur run.length else writeAll run) (sparseLoop rest)

def fileStoreWriteSparse (data : Bytes) : Act :=
  andThen (sparseLoop (runs data)) (ftruncate data.length)

/-- The answer to a `read` of at most `want` bytes, after the interrupted ones. -/
def readSome (want avail : ℕ) : List Reply → Option ℕ × List Reply
  | [] => (none, [])
  | .interrupted::rs => readSome want avail rs
  | .ok::rs => (some (min want avail), rs)
  | .short n::rs => (some (min (n+1) (min want avail)), rs)
  | _::rs => (none, rs)

def copyBuffer : ℕ := 2^20

/-- Copies `remaining` bytes from the offset `src` of `basis`. Every turn copies
at least one, so `remaining` turns are enough. The new source offset is
returned. -/
def copyLoop (basis : Bytes) : ℕ → ℕ → ℕ → Handle → Bool × ℕ × Handle
  | 0, src, remaining, h => (decide (remaining = 0), src, h)
  | fuel+1, src, remaining, h =>
    if remaining = 0 then (true, src, h)
    else
      match readSome (min remaining copyBuffer) (basis.length-src) h.replies with
      | (none, rs) => (false, src, { h with replies := rs })
      | (some 0, rs) => (false, src, { h with replies := rs })
      | (some (k+1), rs) =>
        let w := writeAll ((basis.drop src).take (k+1)) { h with replies := rs }
        if w.1 then copyLoop basis fuel (src+(k+1)) (remaining-(k+1)) w.2
        else (false, src+(k+1), w.2)

def copyFdAll (basis : Bytes) (src expectedSize : ℕ) (h : Handle) : Bool × ℕ × Handle :=
  let r := copyLoop basis expectedSize src expectedSize h
  if r.1 then
    let t := ftruncate expectedSize r.2.2
    (t.1, r.2.1, t.2)
  else r

section Steps

theorem andThen_eq_true {a b : Act} {h h' : Handle} (hab : andThen a b h = (true, h')) :
    ∃ mid, a h = (true, mid) ∧ b mid = (true, h') := by
  unfold andThen at hab
  dsimp only at hab
  split_ifs at hab with ha
  · exact ⟨(a h).2,Prod.ext ha rfl,hab⟩
  · cases hab

theorem call_eq_true {f : Bytes × ℕ → Bytes × ℕ} {h h' : Handle} (hcall : call f h = (true, h')) :
    (h'.content, h'.offset) = f (h.content, h.offset) := by
  unfold call at hcall
  dsimp only at hcall
  split_ifs at hcall
  · cases hcall
    rfl
  · cases hcall

theorem attempt_eq_true {h h' : Handle} (hcall : attempt h = (true, h')) :
    h'.content = h.content ∧ h'.offset = h.offset := by
  have := call_eq_true hcall
  exact Prod.mk.inj this

theorem ftruncate_eq_true (n : ℕ) {h h' : Handle} (hcall : ftruncate n h = (true, h')) :
    h'.content = resize 0 n h.content ∧ h'.offset = h.offset :=
  Prod.mk.inj (call_eq_true hcall)

theorem lseekCur_eq_true {n : ℕ} {h h' : Handle} (hcall : lseekCur n h = (true, h')) :
    h'.content = h.content ∧ h'.offset = h.offset+n :=
  Prod.mk.inj (call_eq_true hcall)

theorem lseekStart_eq {h h' : Handle} (hzero : h.offset = 0) (hcall : lseekStart h = (true, h')) :
    h'.content = h.content ∧ h'.offset = 0 := by
  unfold lseekStart call at hcall
  dsimp only at hcall
  split_ifs at hcall <;> cases hcall
  · exact ⟨rfl,rfl⟩
  · exact ⟨rfl,hzero⟩

theorem preallocateFd_eq_true {n : ℕ} {h h' : Handle} (hcall : preallocateFd n h = (true, h')) :
    h'.offset = h.offset ∧
      (h'.content = extend 0 n h.content ∨ h'.content = resize 0 n h.content) := by
  unfold preallocateFd at hcall
  dsimp only at hcall
  split_ifs at hcall
  · cases hcall
    exact ⟨rfl,.inl rfl⟩
  · cases hcall
    exact ⟨rfl,.inl rfl⟩
  · obtain ⟨h1,h2⟩ := ftruncate_eq_true n hcall
    exact ⟨h2,.inr h1⟩
  · cases hcall
  · cases hcall

theorem writeLoop_eq_true {replies : List Reply} (done rest data : Bytes) (h h' : Handle)
    (hc : h.content = done++rest) (ho : h.offset = done.length)
    (hloop : writeLoop replies h data = (true, h')) :
    h'.content = (done++data)++rest.drop data.length ∧ h'.offset = (done++data).length := by
  induction replies generalizing done rest data h with
  | nil =>
    cases data with
    | nil =>
      cases hloop
      simp [hc, ho]
    | cons b bs => cases hloop
  | cons r rs ih =>
    cases data with
    | nil =>
      cases hloop
      simp [hc, ho]
    | cons b bs =>
      cases r with
      | interrupted => exact ih done rest (b::bs) h hc ho hloop
      | ok =>
        cases hloop
        refine ⟨?_,?_⟩
        · show writeAt 0 h.content h.offset (b::bs) = _
          rw [hc, ho, writeAt_split]
        · show h.offset+(bs.length+1) = _
          rw [ho, List.length_append, List.length_cons]
      | short n =>
        rw [writeLoop] at hloop
        generalize hk : min (n+1) (bs.length+1) = k at hloop
        have hlen : ((b::bs).take k).length = k := by
          rw [List.length_take, List.length_cons]
          omega
        have hoff : h.offset+k = (done++(b::bs).take k).length := by
          rw [List.length_append, hlen, ho]
        have hput : writeAt 0 h.content h.offset ((b::bs).take k) =
            (done++(b::bs).take k)++rest.drop k := by
          rw [hc, ho, writeAt_split, hlen]
        obtain ⟨hc',ho'⟩ := ih _ _ _ _ hput hoff hloop
        have hjoin : done++(b::bs).take k++(b::bs).drop k = done++b::bs := by
          rw [List.append_assoc, List.take_append_drop]
        rw [hjoin] at hc' ho'
        refine ⟨?_,ho'⟩
        rw [hc', List.drop_drop]
        congr 2
        rw [List.length_drop, List.length_cons]
        omega
      | failed | crossDevice | unsupported => cases hloop

theorem writeAll_eq_true (done rest data : Bytes) (h h' : Handle) (hc : h.content = done++rest)
    (ho : h.offset = done.length) (hcall : writeAll data h = (true, h')) :
    h'.content = (done++data)++rest.drop data.length ∧ h'.offset = (done++data).length :=
  writeLoop_eq_true done rest data h h' hc ho hcall

end Steps

section Sparse

/-- What the sparse writer leaves of `old`: its own bytes where a run was
skipped, the payload elsewhere. -/
def sparseImage : List Bytes → Bytes → Bytes
  | [], old => old
  | run::rest, old =>
    (if isHole run then old.take run.length else run)++sparseImage rest (old.drop run.length)

/-- Every skipped run lies over zeros of `old`. -/
def HolesClear : List Bytes → Bytes → Prop
  | [], _ => True
  | run::rest, old =>
    (isHole run = true → old.take run.length = run) ∧ HolesClear rest (old.drop run.length)

theorem sparseLoop_eq_true {rs : List Bytes} (done old : Bytes) (h h' : Handle)
    (hc : h.content = done++old) (ho : h.offset = done.length) (hlen : rs.flatten.length ≤ old.length)
    (hloop : sparseLoop rs h = (true, h')) : h'.content = done++sparseImage rs old := by
  induction rs generalizing done old h with
  | nil =>
    cases hloop
    exact hc
  | cons run rest ih =>
    rw [List.flatten_cons, List.length_append] at hlen
    obtain ⟨mid,hmid,hrest⟩ := andThen_eq_true hloop
    have hfit : rest.flatten.length ≤ (old.drop run.length).length := by
      rw [List.length_drop]
      omega
    rw [sparseImage]
    by_cases hole : isHole run = true
    · rw [if_pos hole] at hmid ⊢
      obtain ⟨h1,h2⟩ := lseekCur_eq_true hmid
      have hsplit : mid.content = (done++old.take run.length)++old.drop run.length := by
        rw [h1, hc, List.append_assoc, List.take_append_drop]
      have hoff : mid.offset = (done++old.take run.length).length := by
        rw [h2, ho, List.length_append, List.length_take]
        omega
      rw [ih _ _ mid hsplit hoff hfit hrest, List.append_assoc]
    · rw [if_neg hole] at hmid ⊢
      obtain ⟨h1,h2⟩ := writeAll_eq_true done old run h mid hc ho hmid
      rw [ih _ _ mid h1 h2 hfit hrest, List.append_assoc]

theorem sparseImage_length {rs : List Bytes} (old : Bytes) (hlen : rs.flatten.length ≤ old.length) :
    (sparseImage rs old).length = old.length := by
  induction rs generalizing old with
  | nil => rfl
  | cons run rest ih =>
    rw [List.flatten_cons, List.length_append] at hlen
    have hdrop := ih (old.drop run.length) (by rw [List.length_drop]; omega)
    rw [sparseImage, List.length_append, hdrop, List.length_drop]
    split_ifs
    · rw [List.length_take]
      omega
    · omega

/-- The payload comes out exactly when the holes are clear. -/
theorem sparseImage_eq_iff {rs : List Bytes} (old : Bytes) (hlen : rs.flatten.length = old.length) :
    sparseImage rs old = rs.flatten ↔ HolesClear rs old := by
  induction rs generalizing old with
  | nil =>
    have hold : old = [] := List.length_eq_zero_iff.mp hlen.symm
    simp [sparseImage, HolesClear, hold]
  | cons run rest ih =>
    rw [List.flatten_cons, List.length_append] at hlen
    have hdrop := ih (old.drop run.length) (by rw [List.length_drop]; omega)
    rw [sparseImage, HolesClear, List.flatten_cons, ← hdrop]
    by_cases hole : isHole run = true
    · have htake : (old.take run.length).length = run.length := by
        rw [List.length_take]
        omega
      rw [if_pos hole]
      constructor
      · intro h
        obtain ⟨h1,h2⟩ := List.append_inj h htake
        exact ⟨fun _ => h1,h2⟩
      · rintro ⟨h1,h2⟩
        rw [h1 hole, h2]
    · rw [if_neg hole]
      simp [hole]

theorem runs_flatten (data : Bytes) : (runs data).flatten = data := List.flatten_splitBy _ _

theorem runs_hole {data run : Bytes} (hrun : run ∈ runs data) (hole : isHole run = true) :
    run = List.replicate run.length 0 := by
  have hchain : run.IsChain fun a b => ((a == 0) == (b == 0)) = true :=
    List.isChain_of_mem_splitBy hrun
  cases run with
  | nil => rfl
  | cons b bs =>
    have hb : b = 0 := by
      simp only [isHole, List.head?_cons, Bool.and_eq_true, beq_iff_eq, Option.some.injEq] at hole
      exact hole.1
    subst hb
    rw [List.eq_replicate_iff]
    refine ⟨rfl,?_⟩
    clear hrun hole
    induction bs with
    | nil => simp
    | cons c cs ih =>
      rw [List.isChain_cons_cons] at hchain
      have hc : c = 0 := by simpa using hchain.1
      subst hc
      intro x hx
      rcases List.mem_cons.mp hx with rfl | hx
      · rfl
      · exact ih hchain.2 x hx

theorem holesClear_zeros (rs : List Bytes) (m : ℕ)
    (hzero : ∀ run ∈ rs, isHole run = true → run = List.replicate run.length 0)
    (hlen : rs.flatten.length ≤ m) : HolesClear rs (List.replicate m 0) := by
  induction rs generalizing m with
  | nil => trivial
  | cons run rest ih =>
    rw [List.flatten_cons, List.length_append] at hlen
    refine ⟨?_,?_⟩
    · intro hole
      rw [List.take_replicate, Nat.min_eq_left (by omega)]
      exact (hzero run List.mem_cons_self hole).symm
    · rw [List.drop_replicate]
      exact ih _ (fun r hr => hzero r (List.mem_cons_of_mem _ hr)) (by omega)

theorem fileStoreWriteSparse_eq_true {data : Bytes} {h h' : Handle} (ho : h.offset = 0)
    (hlen : h.content.length = data.length) (hcall : fileStoreWriteSparse data h = (true, h')) :
    h'.content = sparseImage (runs data) h.content := by
  obtain ⟨mid,hmid,hend⟩ := andThen_eq_true hcall
  have hfit : (runs data).flatten.length ≤ h.content.length := by
    exact (by rw [runs_flatten, hlen] : (runs data).flatten.length = h.content.length).le
  have himage := sparseLoop_eq_true [] h.content h mid rfl ho hfit hmid
  rw [List.nil_append] at himage
  have hsize : mid.content.length = data.length := by
    rw [himage, sparseImage_length _ hfit, hlen]
  rw [(ftruncate_eq_true _ hend).1, ← hsize, resize_self, himage]

end Sparse

section Copy

theorem readSome_le {want avail : ℕ} {rs rs' : List Reply} {k : ℕ}
    (h : readSome want avail rs = (some k, rs')) : k ≤ want ∧ k ≤ avail := by
  induction rs with
  | nil => cases h
  | cons r rs ih =>
    cases r with
    | interrupted => exact ih h
    | ok | short n =>
      cases h
      omega
    | failed | crossDevice | unsupported => cases h

theorem copyLoop_eq_true {basis : Bytes} {fuel : ℕ} (src remaining : ℕ) {src' : ℕ} (done old : Bytes)
    (h h' : Handle) (hfuel : remaining ≤ fuel) (hc : h.content = done++old)
    (ho : h.offset = done.length) (hloop : copyLoop basis fuel src remaining h = (true, src', h')) :
    h'.content = (done++(basis.drop src).take remaining)++old.drop remaining ∧
      ((basis.drop src).take remaining).length = remaining := by
  induction fuel generalizing src remaining done old h with
  | zero =>
    have hzero : remaining = 0 := by omega
    subst hzero
    cases hloop
    simp [hc]
  | succ fuel ih =>
    rw [copyLoop] at hloop
    by_cases hzero : remaining = 0
    · subst hzero
      cases hloop
      simp [hc]
    · rw [if_neg hzero] at hloop
      split at hloop
      · cases hloop
      · cases hloop
      · rename_i k rs hread
        obtain ⟨hwant,havail⟩ := readSome_le hread
        have hkr : k+1 ≤ remaining := by omega
        have hpiece : ((basis.drop src).take (k+1)).length = k+1 := by
          rw [List.length_take, List.length_drop]
          omega
        dsimp only at hloop
        split_ifs at hloop with hw
        · obtain ⟨h1,h2⟩ := writeAll_eq_true done old ((basis.drop src).take (k+1))
            { h with replies := rs } _ hc ho (Prod.ext hw rfl)
          obtain ⟨h3,h4⟩ := ih (src+(k+1)) (remaining-(k+1)) _ _ _ (by omega) h1 h2 hloop
          have htail : (basis.drop (src+(k+1))).take (remaining-(k+1)) =
              ((basis.drop src).take remaining).drop (k+1) := by
            rw [List.drop_take, List.drop_drop]
          have hjoin : (basis.drop src).take (k+1)++((basis.drop src).take remaining).drop (k+1) =
              (basis.drop src).take remaining := by
            conv_rhs => rw [← List.take_append_drop (k+1) ((basis.drop src).take remaining)]
            rw [List.take_take, Nat.min_eq_left hkr]
          rw [htail] at h3 h4
          refine ⟨?_,?_⟩
          · rw [h3, List.drop_drop, List.append_assoc done, hjoin]
            congr 2
            omega
          · rw [← hjoin, List.length_append, hpiece, h4]
            omega
        · cases hloop

theorem copyFdAll_eq_true {basis : Bytes} {src expectedSize src' : ℕ} {h h' : Handle}
    (ho : h.offset = 0) (hcall : copyFdAll basis src expectedSize h = (true, src', h')) :
    h'.content = (basis.drop src).take expectedSize ∧
      ((basis.drop src).take expectedSize).length = expectedSize := by
  unfold copyFdAll at hcall
  dsimp only at hcall
  split_ifs at hcall with hloop
  · obtain ⟨h1,h2⟩ := copyLoop_eq_true src expectedSize [] h.content h
      (copyLoop basis expectedSize src expectedSize h).2.2 (Nat.le_refl _) rfl ho (Prod.ext hloop rfl)
    obtain ⟨ht,hrest⟩ := Prod.mk.inj hcall
    obtain ⟨-,rfl⟩ := Prod.mk.inj hrest
    have htr := (ftruncate_eq_true expectedSize (Prod.ext ht rfl)).1
    have hcut := resize_append (0 : UInt8) ((basis.drop src).take expectedSize)
      (h.content.drop expectedSize)
    rw [h2] at hcut
    refine ⟨?_,h2⟩
    rw [htr, h1, List.nil_append, hcut]
  · rw [hcall] at hloop
    exact absurd rfl hloop

end Copy

end FastSync.StoreWrite
