import FastSync.Threads
import FastSync.WireValues

/-!
# Waiting for a status with keepalives

The caller waits for the peer's status and sends a keepalive whenever its poll times
out. The peer answers every keepalive, before or after its status, so the answers that
are still owed are read once the status has come. A call goes on by turns: in each it
polls, reads what one `recv` brings, or sends. A detail that comes with an error is
read into a buffer of its own, or skipped when it is too long.
-/

set_option autoImplicit false

namespace FastSync.KeepaliveExchange
open LittleEndian Threads
open WireValues (maxStringSize)

def statusError : ℕ := 1
def statusKeepalive : ℕ := 9
def statusErrorDetail : ℕ := 25
def statusStats : ℕ := 30
def maxErrorDetailBytes : ℕ := 4096
def scratchSize : ℕ := 256

inductive Poll where
  | timeout
  | interrupted
  | failed
  | ready
deriving DecidableEq, Repr

inductive Recv where
  | retry
  | closed
  | bytes (n : ℕ)
deriving DecidableEq, Repr

structure Turn where
  abort : Bool
  -- asked again when the poll has timed out
  abortLate : Bool
  pending : Bool
  expired : Bool
  poll : Poll
  sent : Bool
  recv : Recv
deriving DecidableEq, Repr

/-- What is read as a whole; `drain` tells the answers that are owed from the status. -/
inductive Item where
  | status (drain : Bool)
  | size (drain : Bool)
  | detail (drain : Bool) (size : ℕ)
  | scrap (drain : Bool) (remaining : ℕ)
deriving DecidableEq, Repr

inductive Phase where
  | waiting
  | reading (item : Item) (got : List UInt8)
  | skipping (drain : Bool) (remaining : ℕ)
  -- the status is there, and answers may still be owed
  | leaving
  | returned (ok : Bool)
deriving DecidableEq, Repr

structure State where
  inbound : List UInt8
  phase : Phase
  keepalivesSent : ℕ
  repliesSeen : ℕ
  final : ℕ
  detail : List UInt8
  status : Option ℕ
deriving DecidableEq, Repr

def want : Item → ℕ
  | .status _ => 4
  | .size _ => 8
  | .detail _ size => size
  | .scrap _ remaining => min remaining scratchSize

def statusIsValid (status : ℕ) : Bool := status ≤ statusStats

def fail (s : State) : State := { s with phase := .returned false }

def succeed (s : State) : State :=
  { s with
    phase := .returned true
    status := some s.final }

def captured (drain : Bool) (status : ℕ) (s : State) : State :=
  if drain then
    if status ≠ statusKeepalive then fail s
    else
      { s with
        repliesSeen := s.repliesSeen+1
        phase := .leaving }
  else if status = statusKeepalive then
    { s with
      repliesSeen := s.repliesSeen+1
      phase := .waiting }
  else
    { s with
      final := status
      phase := .leaving }

def protocolCaptureErrorDetail (drain : Bool) (status : ℕ) (s : State) : State :=
  if status = statusKeepalive then captured drain status s
  else if status ≠ statusErrorDetail then captured drain status { s with detail := [] }
  else
    { s with
      detail := []
      phase := .reading (.size drain) [] }

def statusRead (drain : Bool) (status : ℕ) (s : State) : State :=
  if !drain && !statusIsValid status then fail s else protocolCaptureErrorDetail drain status s

def sizeRead (drain : Bool) (size : ℕ) (s : State) : State :=
  if size > maxStringSize then fail s
  else if size > maxErrorDetailBytes then { s with phase := .skipping drain size }
  else if size = 0 then captured drain statusError s
  else { s with phase := .reading (.detail drain size) [] }

def scrapRead (drain : Bool) (remaining : ℕ) (s : State) : State :=
  if remaining ≤ scratchSize then captured drain statusError s
  else { s with phase := .skipping drain (remaining-scratchSize) }

def complete (item : Item) (got : List UInt8) (s : State) : State :=
  match item with
  | .status drain => statusRead drain (decode got) s
  | .size drain => sizeRead drain (decode got) s
  | .detail drain _ => captured drain statusError { s with detail := got }
  | .scrap drain remaining => scrapRead drain remaining s

def advance (item : Item) (got : List UInt8) (s : State) : State :=
  if got.length = want item then complete item got s
  else { s with phase := .reading item got }

/-- A read that breaks off. An answer that never comes does not undo the status. -/
def broken (item : Item) (s : State) : State :=
  match item with
  | .status true => succeed s
  | _ => fail s

def isStatus : Item → Bool
  | .status _ => true
  | _ => false

def recvBytes (turn : Turn) (item : Item) (got : List UInt8) (s : State) : State :=
  match turn.recv with
  | .retry => s
  | .closed => broken item s
  | .bytes n =>
    if n = 0 ∨ s.inbound = [] then broken item s
    else
      advance item (got++s.inbound.take (min n (want item-got.length)))
        { s with inbound := s.inbound.drop (min n (want item-got.length)) }

/-- One pass of the loop that reads an item. Only a status looks at the clock before it
polls. -/
def read (turn : Turn) (item : Item) (got : List UInt8) (s : State) : State :=
  if turn.pending then recvBytes turn item got s
  else if isStatus item && turn.expired then broken item s
  else
    match turn.poll with
    | .timeout => broken item s
    | .interrupted => s
    | .failed => broken item s
    | .ready => recvBytes turn item got s

def wait (turn : Turn) (s : State) : State :=
  if turn.abort then fail s
  else if turn.pending then { s with phase := .reading (.status false) [] }
  else if turn.expired then fail s
  else
    match turn.poll with
    | .timeout =>
      if turn.abortLate then fail s
      else if turn.sent then { s with keepalivesSent := s.keepalivesSent+1 }
      else fail s
    | .interrupted => s
    | .failed => fail s
    | .ready => { s with phase := .reading (.status false) [] }

def step (s : State) (turn : Turn) : State :=
  match s.phase with
  | .waiting => wait turn s
  | .reading item got => read turn item got s
  | .skipping drain remaining =>
    if turn.abort then fail s else { s with phase := .reading (.scrap drain remaining) [] }
  | .leaving =>
    if s.repliesSeen < s.keepalivesSent then { s with phase := .reading (.status true) [] }
    else succeed s
  | .returned _ => s

/-- The call on a stream, with whatever detail an earlier exchange has left. -/
def start (inbound detail : List UInt8) : State :=
  ⟨inbound,.waiting,0,0,statusError,detail,none⟩

def protocolLastError (s : State) : List UInt8 := s.detail.takeWhile fun b => b ≠ 0

/-! ## The peer's frames -/

inductive Terminal where
  | status (code : ℕ)
  | errorDetail (body : List UInt8)
deriving DecidableEq, Repr

def Terminal.Valid : Terminal → Prop
  | .status code =>
    statusIsValid code = true ∧ code ≠ statusKeepalive ∧ code ≠ statusErrorDetail
  | .errorDetail body => body.length ≤ maxStringSize

def frame : Terminal → List UInt8
  | .status code => encode 4 code
  | .errorDetail body => encode 4 statusErrorDetail++(encode 8 body.length++body)

def result : Terminal → ℕ
  | .status code => code
  | .errorDetail _ => statusError

def detailOf : Terminal → List UInt8
  | .status _ => []
  | .errorDetail body => if body.length ≤ maxErrorDetailBytes then body else []

def keepalives : ℕ → List UInt8
  | 0 => []
  | n+1 => encode 4 statusKeepalive++keepalives n

/-! ## Turns in time -/

/-- Nothing fails and nothing comes too late: only the wait for a frame times out. -/
structure Timely (s : State) (turn : Turn) : Prop where
  noAbort : turn.abort = false
  noAbortLate : turn.abortLate = false
  inTime : turn.expired = false
  sends : turn.sent = true
  polls : turn.poll ≠ .failed
  stays : turn.recv ≠ .closed
  brings : turn.recv ≠ .bytes 0
  arrives : s.phase ≠ .waiting → turn.pending = true ∨ turn.poll ≠ .timeout

def Progress (turn : Turn) : Prop :=
  (turn.pending = true ∨ turn.poll = .ready) ∧ ∃ n, turn.recv = .bytes n

variable {s : State} {turn : Turn} {item : Item} {got : List UInt8}

/-- The state after a turn of a read that brings the next bytes, or nothing. -/
def Reads (turn : Turn) (item : Item) (got : List UInt8) (s s' : State) : Prop :=
  (s' = s ∧ ¬ Progress turn) ∨
    ∃ chunk rest, chunk ≠ [] ∧ s.inbound = chunk++rest ∧ (got++chunk).length ≤ want item ∧
      s' = advance item (got++chunk) { s with inbound := rest }

theorem read_cases
    (hphase : s.phase = .reading item got) (ht : Timely s turn) (hgot : got.length < want item)
    (hin : s.inbound ≠ []) : Reads turn item got s (read turn item got s) := by
  have hrecv : Reads turn item got s (recvBytes turn item got s) := by
    unfold recvBytes
    cases hr : turn.recv with
    | retry =>
      left
      refine ⟨rfl,?_⟩
      intro hp
      obtain ⟨n,hn⟩ := hp.2
      rw [hr] at hn
      cases hn
    | closed => exact absurd hr ht.stays
    | bytes n =>
      right
      have hn : n ≠ 0 := by
        intro hzero
        rw [hzero] at hr
        exact ht.brings hr
      have hlength : 0 < s.inbound.length := List.length_pos_of_ne_nil hin
      refine ⟨s.inbound.take (min n (want item-got.length)),
        s.inbound.drop (min n (want item-got.length)),?_,(List.take_append_drop _ _).symm,?_,?_⟩
      · intro hnil
        have hzero := congrArg List.length hnil
        rw [List.length_take, List.length_nil] at hzero
        omega
      · rw [List.length_append, List.length_take]
        omega
      · simp [hn, hin]
  unfold read
  cases hpending : turn.pending with
  | true => exact hrecv
  | false =>
    rw [ht.inTime, Bool.and_false]
    have harrives := (ht.arrives (by rw [hphase]; exact Phase.noConfusion)).resolve_left
      (by rw [hpending]; decide)
    cases hpoll : turn.poll with
    | timeout => exact absurd hpoll harrives
    | interrupted =>
      left
      refine ⟨rfl,?_⟩
      intro hp
      apply hp.1.elim
      · rw [hpending]
        decide
      · rw [hpoll]
        decide
    | failed => exact absurd hpoll ht.polls
    | ready => exact hrecv

theorem captured_inbound {drain : Bool} {status : ℕ} (s : State) :
    (captured drain status s).inbound = s.inbound := by
  unfold captured
  split_ifs <;> rfl

theorem complete_inbound (item : Item) (got : List UInt8) (s : State) :
    (complete item got s).inbound = s.inbound := by
  cases item with
  | status drain =>
    show (statusRead drain (decode got) s).inbound = s.inbound
    unfold statusRead protocolCaptureErrorDetail
    split_ifs <;> first | rfl | rw [captured_inbound]
  | size drain =>
    show (sizeRead drain (decode got) s).inbound = s.inbound
    unfold sizeRead
    split_ifs <;> first | rfl | rw [captured_inbound]
  | detail drain size => exact captured_inbound { s with detail := got }
  | scrap drain remaining =>
    show (scrapRead drain remaining s).inbound = s.inbound
    unfold scrapRead
    split_ifs
    · exact captured_inbound s
    · rfl

/-! ## How far the call is from its end -/

def phaseRank : Phase → ℕ
  | .waiting => 2
  | .reading _ _ => 1
  | .skipping _ _ => 2
  | .leaving => 2
  | .returned _ => 0

def rank (s : State) : ℕ := 3*s.inbound.length+phaseRank s.phase

theorem rank_le (s : State) : rank s ≤ 3*s.inbound.length+2 := by
  have hphase : phaseRank s.phase ≤ 2 := by
    cases s.phase <;> simp [phaseRank]
  unfold rank
  omega

/-- A turn never takes the call back, and takes it on when there is something to read. -/
def Falls (s s' : State) (turn : Turn) : Prop :=
  rank s' ≤ rank s ∧ (Progress turn → rank s' < rank s)

theorem falls_of_lt {s' : State} (h : rank s' < rank s) : Falls s s' turn :=
  ⟨Nat.le_of_lt h,fun _ => h⟩

theorem falls_self (h : ¬ Progress turn) : Falls s s turn :=
  ⟨Nat.le_refl _,fun hp => absurd hp h⟩

theorem falls_of_phase {s' : State} {phase : Phase} (hin : s'.inbound = s.inbound)
    (hphase : s.phase = phase) (h : phaseRank s'.phase < phaseRank phase) : Falls s s' turn := by
  apply falls_of_lt
  unfold rank
  rw [hin, hphase]
  omega

theorem falls_of_shorter {s' : State}
    (hphase : s.phase = .reading item got) (h : s'.inbound.length < s.inbound.length) :
    Falls s s' turn := by
  apply falls_of_lt
  have hle := rank_le s'
  have hs : rank s = 3*s.inbound.length+1 := by rw [rank, hphase]; rfl
  omega

/-- A read of a value that is on its way goes on and ends with that value: a property
survives it that holds of every read of a part and of the state in the end. -/
theorem reading_keeps {P : State → Prop}
    {value more : List UInt8} (hphase : s.phase = .reading item got) (ht : Timely s turn)
    (hgot : got.length < want item) (hvalue : value.length = want item)
    (hin : got++s.inbound = value++more) (hs : P s)
    (hpart : ∀ got' rest, got'.length < want item → got'++rest = value++more →
      P { s with inbound := rest, phase := .reading item got' })
    (hdone : P (complete item value { s with inbound := more })) :
    P (step s turn) ∧ Falls s (step s turn) turn := by
  have hstep : step s turn = read turn item got s := by rw [step, hphase]
  have hlength := congrArg List.length hin
  rw [List.length_append, List.length_append] at hlength
  have hne : s.inbound ≠ [] := by
    intro hnil
    rw [hnil, List.length_nil] at hlength
    omega
  rw [hstep]
  rcases read_cases hphase ht hgot hne with ⟨hsame,hno⟩ | ⟨chunk,rest,hchunk,hsplit,hle,hread⟩
  · rw [hsame]
    exact ⟨hs,falls_self hno⟩
  · have hpos : 0 < chunk.length := List.length_pos_of_ne_nil hchunk
    have hless : rest.length < s.inbound.length := by
      rw [hsplit, List.length_append]
      omega
    rw [hsplit, ← List.append_assoc] at hin
    rw [hread, advance]
    by_cases hfull : (got++chunk).length = want item
    · obtain ⟨hval,hmore⟩ := List.append_inj hin (hfull.trans hvalue.symm)
      rw [if_pos hfull, hval, hmore]
      refine ⟨hdone,falls_of_shorter hphase ?_⟩
      rw [complete_inbound]
      exact hmore ▸ hless
    · rw [if_neg hfull]
      exact ⟨hpart (got++chunk) rest (by omega) hin,falls_of_shorter hphase hless⟩

/-! ## The wait for the status -/

section Wait
variable (before : ℕ) (terminal : Terminal) (tail : List UInt8)

/-- What the wait has before it when `tail` follows the status. -/
def Approaching (s : State) : Prop :=
  match s.phase with
  | .waiting =>
    ∃ b, s.repliesSeen+b = before ∧ s.inbound = keepalives b++(frame terminal++tail)
  | .reading (.status false) got =>
    got.length < 4 ∧
      ∃ b, s.repliesSeen+b = before ∧ got++s.inbound = keepalives b++(frame terminal++tail)
  | .reading (.size false) got =>
    s.repliesSeen = before ∧ s.detail = [] ∧ got.length < 8 ∧
      ∃ body, terminal = .errorDetail body ∧
        got++s.inbound = encode 8 body.length++(body++tail)
  | .reading (.detail false size) got =>
    s.repliesSeen = before ∧ got.length < size ∧ size ≤ maxErrorDetailBytes ∧
      ∃ body, terminal = .errorDetail body ∧ size = body.length ∧ got++s.inbound = body++tail
  | .reading (.scrap false remaining) got =>
    s.repliesSeen = before ∧ s.detail = [] ∧ got.length < min remaining scratchSize ∧
      detailOf terminal = [] ∧ result terminal = statusError ∧
      ∃ left, left.length = remaining ∧ got++s.inbound = left++tail
  | .skipping false remaining =>
    s.repliesSeen = before ∧ s.detail = [] ∧ 0 < remaining ∧
      detailOf terminal = [] ∧ result terminal = statusError ∧
      ∃ left, left.length = remaining ∧ s.inbound = left++tail
  | .leaving =>
    s.repliesSeen = before ∧ s.final = result terminal ∧ s.detail = detailOf terminal ∧
      s.inbound = tail
  | _ => False

variable {before : ℕ} {terminal : Terminal} {tail : List UInt8}

theorem approaching_statusRead {s : State} {b : ℕ} (hvalid : terminal.Valid)
    (hseen : s.repliesSeen+b = before) :
    ∃ value more, value.length = 4 ∧
      keepalives b++(frame terminal++tail) = value++more ∧
      Approaching before terminal tail
        (statusRead false (decode value) { s with inbound := more }) := by
  cases b with
  | succ b =>
    refine ⟨encode 4 statusKeepalive,keepalives b++(frame terminal++tail),encode_length _,
      List.append_assoc _ _ _,b,?_,rfl⟩
    show s.repliesSeen+1+b = before
    omega
  | zero =>
    cases terminal with
    | status code =>
      obtain ⟨hcode,hkeep,hdetail⟩ := hvalid
      refine ⟨encode 4 code,tail,encode_length _,rfl,?_⟩
      have hsmall : code < 256^4 := by
        have hle : code ≤ statusStats := of_decide_eq_true hcode
        exact Nat.lt_of_le_of_lt hle (by decide)
      have hread : statusRead false code { s with inbound := tail } =
          { s with
            inbound := tail
            detail := []
            final := code
            phase := .leaving } := by
        simp [statusRead, hcode, protocolCaptureErrorDetail, hkeep, hdetail, captured]
      rw [decode_encode 4 _ hsmall, hread]
      exact ⟨hseen,rfl,rfl,rfl⟩
    | errorDetail body =>
      refine ⟨encode 4 statusErrorDetail,encode 8 body.length++(body++tail),encode_length _,
        ?_,hseen,rfl,by decide,body,rfl,rfl⟩
      show encode 4 statusErrorDetail++(encode 8 body.length++body)++tail = _
      rw [List.append_assoc, List.append_assoc]

theorem approaching_scrapRead {remaining : ℕ} {left : List UInt8}
    (hseen : s.repliesSeen = before) (hdetail : s.detail = [])
    (hempty : detailOf terminal = []) (hresult : result terminal = statusError)
    (hlength : left.length = remaining) (hin : s.inbound = left.drop scratchSize++tail) :
    Approaching before terminal tail (scrapRead false remaining s) := by
  unfold scrapRead
  by_cases hlast : remaining ≤ scratchSize
  · rw [if_pos hlast]
    refine ⟨hseen,hresult.symm,hdetail.trans hempty.symm,?_⟩
    rw [List.drop_eq_nil_of_le (by omega)] at hin
    exact hin
  · rw [if_neg hlast]
    refine ⟨hseen,hdetail,?_,hempty,hresult,left.drop scratchSize,?_,hin⟩
    · show 0 < remaining-scratchSize
      omega
    · rw [List.length_drop, hlength]

theorem approaching_size {body : List UInt8} (hvalid : body.length ≤ maxStringSize)
    (hseen : s.repliesSeen = before) (hdetail : s.detail = []) (hin : s.inbound = body++tail) :
    Approaching before (.errorDetail body) tail (sizeRead false body.length s) := by
  unfold sizeRead
  rw [if_neg (by omega)]
  by_cases hlong : body.length > maxErrorDetailBytes
  · rw [if_pos hlong]
    have hempty : detailOf (.errorDetail body) = [] := if_neg (by omega)
    exact ⟨hseen,hdetail,by show 0 < body.length; omega,hempty,rfl,body,rfl,hin⟩
  · rw [if_neg hlong]
    have hkept : detailOf (.errorDetail body) = body := if_pos (by omega)
    by_cases hzero : body.length = 0
    · rw [if_pos hzero]
      have hnil : body = [] := List.eq_nil_of_length_eq_zero hzero
      refine ⟨hseen,rfl,?_,?_⟩
      · rw [hkept, hnil]
        exact hdetail
      · rw [hnil] at hin
        exact hin
    · rw [if_neg hzero]
      exact ⟨hseen,by show 0 < body.length; omega,by omega,body,rfl,rfl,hin⟩

theorem approaching_wait (hphase : s.phase = .waiting)
    (hs : Approaching before terminal tail s) (ht : Timely s turn) :
    Approaching before terminal tail (step s turn) ∧ Falls s (step s turn) turn := by
  have hwait : step s turn = wait turn s := by rw [step, hphase]
  have hbefore := hs
  simp only [Approaching, hphase] at hbefore
  obtain ⟨b,hseen,hin⟩ := hbefore
  have hread : Approaching before terminal tail { s with phase := .reading (.status false) [] } ∧
      Falls s { s with phase := .reading (.status false) [] } turn := by
    exact ⟨⟨by decide,b,hseen,hin⟩,falls_of_phase rfl hphase (Nat.lt_succ_self 1)⟩
  rw [hwait, wait, ht.noAbort, ht.inTime, ht.noAbortLate, ht.sends]
  cases hpending : turn.pending with
  | true => exact hread
  | false =>
    have hidle : turn.poll ≠ .ready → ¬ Progress turn := by
      intro hpoll hp
      exact hp.1.elim (by rw [hpending]; decide) hpoll
    cases hpoll : turn.poll with
    | timeout =>
      have hsent : Approaching before terminal tail
          { s with keepalivesSent := s.keepalivesSent+1 } := by
        simp only [Approaching, hphase]
        exact ⟨b,hseen,hin⟩
      exact ⟨hsent,falls_self (hidle (by rw [hpoll]; decide))⟩
    | interrupted => exact ⟨hs,falls_self (hidle (by rw [hpoll]; decide))⟩
    | failed => exact absurd hpoll ht.polls
    | ready => exact hread

theorem approaching_read
    (hvalid : terminal.Valid) (hphase : s.phase = .reading item got)
    (hs : Approaching before terminal tail s) (ht : Timely s turn) :
    Approaching before terminal tail (step s turn) ∧ Falls s (step s turn) turn := by
  have hbefore := hs
  simp only [Approaching, hphase] at hbefore
  cases item with
  | status drain =>
    cases drain with
    | true => exact hbefore.elim
    | false =>
      obtain ⟨hgot,b,hseen,hin⟩ := hbefore
      obtain ⟨value,more,hvalue,hsplit,hdone⟩ := approaching_statusRead hvalid hseen
      rw [hsplit] at hin
      refine reading_keeps hphase ht hgot hvalue hin hs ?_ hdone
      intro got' rest hless happ
      exact ⟨hless,b,hseen,happ.trans hsplit.symm⟩
  | size drain =>
    cases drain with
    | true => exact hbefore.elim
    | false =>
      obtain ⟨hseen,hdetail,hgot,body,hterminal,hin⟩ := hbefore
      subst hterminal
      refine reading_keeps hphase ht hgot (encode_length _) hin hs ?_ ?_
      · intro got' rest hless happ
        exact ⟨hseen,hdetail,hless,body,rfl,happ⟩
      · have hsize : body.length < 256^8 := Nat.lt_of_le_of_lt hvalid (by decide)
        show Approaching before _ tail (sizeRead false (decode (encode 8 body.length)) _)
        rw [decode_encode 8 _ hsize]
        exact approaching_size hvalid hseen hdetail rfl
  | detail drain size =>
    cases drain with
    | true => exact hbefore.elim
    | false =>
      obtain ⟨hseen,hgot,hshort,body,hterminal,hsize,hin⟩ := hbefore
      subst hterminal
      refine reading_keeps hphase ht hgot hsize.symm hin hs ?_ ?_
      · intro got' rest hless happ
        exact ⟨hseen,hless,hshort,body,rfl,hsize,happ⟩
      · have hkept : detailOf (.errorDetail body) = body := if_pos (hsize ▸ hshort)
        exact ⟨hseen,rfl,hkept.symm,rfl⟩
  | scrap drain remaining =>
    cases drain with
    | true => exact hbefore.elim
    | false =>
      obtain ⟨hseen,hdetail,hgot,hempty,hresult,left,hlength,hin⟩ := hbefore
      have hvalue : (left.take scratchSize).length = want (.scrap false remaining) := by
        rw [List.length_take, hlength, Nat.min_comm]
        rfl
      have hsplit : left++tail = left.take scratchSize++(left.drop scratchSize++tail) := by
        rw [← List.append_assoc, List.take_append_drop]
      rw [hsplit] at hin
      refine reading_keeps hphase ht hgot hvalue hin hs ?_ ?_
      · intro got' rest hless happ
        exact ⟨hseen,hdetail,hless,hempty,hresult,left,hlength,happ.trans hsplit.symm⟩
      · exact approaching_scrapRead hseen hdetail hempty hresult hlength rfl

theorem approaching_step (hvalid : terminal.Valid)
    (hs : Approaching before terminal tail s) (hleft : s.phase ≠ .leaving) (ht : Timely s turn) :
    Approaching before terminal tail (step s turn) ∧ Falls s (step s turn) turn := by
  cases hphase : s.phase with
  | waiting => exact approaching_wait hphase hs ht
  | reading item got => exact approaching_read hvalid hphase hs ht
  | skipping drain remaining =>
    simp only [Approaching, hphase] at hs
    cases drain with
    | true => exact hs.elim
    | false =>
      obtain ⟨hseen,hdetail,hpos,hempty,hresult,left,hlength,hin⟩ := hs
      have hstep : step s turn = { s with phase := .reading (.scrap false remaining) [] } := by
        rw [step, hphase]
        simp [ht.noAbort]
      rw [hstep]
      refine ⟨⟨hseen,hdetail,?_,hempty,hresult,left,hlength,hin⟩,?_⟩
      · exact Nat.lt_min.mpr ⟨hpos,by decide⟩
      · exact falls_of_phase rfl hphase (Nat.lt_succ_self 1)
  | leaving => exact absurd hphase hleft
  | returned ok =>
    simp only [Approaching, hphase] at hs

end Wait

/-! ## The answers that are owed -/

def drains : Item → Bool
  | .status drain => drain
  | .size drain => drain
  | .detail drain _ => drain
  | .scrap drain _ => drain

/-- The status is there, so that no keepalive is sent any more. -/
def Past : Phase → Prop
  | .waiting => False
  | .reading item _ => drains item = true
  | .skipping drain _ => drain = true
  | .leaving => True
  | .returned _ => True

def Moves (s s' : State) : Prop := Past s'.phase ∧ s'.keepalivesSent = s.keepalivesSent

theorem moves_captured {status : ℕ} (s : State) : Moves s (captured true status s) := by
  unfold captured
  simp only [if_true]
  split_ifs
  · exact ⟨trivial,rfl⟩
  · exact ⟨trivial,rfl⟩

theorem moves_complete {got : List UInt8} {s : State} (h : drains item = true) :
    Moves s (complete item got s) := by
  cases item with
  | status drain =>
    obtain rfl : drain = true := h
    show Moves s (statusRead true (decode got) s)
    unfold statusRead protocolCaptureErrorDetail
    simp only [Bool.not_true, Bool.false_and, Bool.false_eq_true, if_false]
    split_ifs
    · exact moves_captured s
    · exact moves_captured { s with detail := [] }
    · exact ⟨rfl,rfl⟩
  | size drain =>
    obtain rfl : drain = true := h
    show Moves s (sizeRead true (decode got) s)
    unfold sizeRead
    split_ifs
    · exact ⟨trivial,rfl⟩
    · exact ⟨rfl,rfl⟩
    · exact moves_captured s
    · exact ⟨rfl,rfl⟩
  | detail drain size =>
    obtain rfl : drain = true := h
    exact moves_captured { s with detail := got }
  | scrap drain remaining =>
    obtain rfl : drain = true := h
    show Moves s (scrapRead true remaining s)
    unfold scrapRead
    split_ifs
    · exact moves_captured s
    · exact ⟨rfl,rfl⟩

theorem moves_broken {item : Item} {s : State} : Moves s (broken item s) := by
  unfold broken
  split
  · exact ⟨trivial,rfl⟩
  · exact ⟨trivial,rfl⟩

theorem moves_recvBytes (turn : Turn)
    (hphase : s.phase = .reading item got) (h : drains item = true) :
    Moves s (recvBytes turn item got s) := by
  have hsame : Moves s s := ⟨by rw [hphase]; exact h,rfl⟩
  unfold recvBytes
  cases turn.recv with
  | retry => exact hsame
  | closed => exact moves_broken
  | bytes n =>
    show Moves s (if _ then _ else _)
    split_ifs
    · exact moves_broken
    · unfold advance
      split_ifs
      · exact moves_complete h
      · exact ⟨h,rfl⟩

theorem moves_step {turn : Turn} (h : Past s.phase) : Moves s (step s turn) := by
  unfold step
  cases hphase : s.phase with
  | waiting =>
    rw [hphase] at h
    exact h.elim
  | reading item got =>
    have hdrains : drains item = true := by
      rw [hphase] at h
      exact h
    have hrecv := moves_recvBytes turn hphase hdrains
    show Moves s (read turn item got s)
    unfold read
    split_ifs
    · exact hrecv
    · exact moves_broken
    · cases turn.poll with
      | timeout | failed => exact moves_broken
      | interrupted => exact ⟨h,rfl⟩
      | ready => exact hrecv
  | skipping drain remaining =>
    rw [hphase] at h
    show Moves s (if _ then _ else _)
    split_ifs
    · exact ⟨trivial,rfl⟩
    · exact ⟨h,rfl⟩
  | leaving =>
    show Moves s (if _ then _ else _)
    split_ifs
    · exact ⟨rfl,rfl⟩
    · exact ⟨trivial,rfl⟩
  | returned ok => exact ⟨h,rfl⟩

theorem sent_settled {schedule : ℕ → Turn} {n m : ℕ} (hnm : n ≤ m)
    (h : Past (trace step s schedule n).phase) :
    Past (trace step s schedule m).phase ∧
      (trace step s schedule m).keepalivesSent = (trace step s schedule n).keepalivesSent := by
  induction m, hnm using Nat.le_induction with
  | base => exact ⟨h,rfl⟩
  | succ m _ ih =>
    obtain ⟨hpast,hsent⟩ := moves_step ih.1
    exact ⟨hpast,hsent.trans ih.2⟩

section Drain
variable (total : ℕ) (terminal : Terminal) (rest : List UInt8)

/-- The answers still owed stand between the call and what follows. -/
def Draining (s : State) : Prop :=
  s.keepalivesSent = total ∧ s.detail = detailOf terminal ∧ s.final = result terminal ∧
    match s.phase with
    | .leaving => ∃ a, s.repliesSeen+a = total ∧ s.inbound = keepalives a++rest
    | .reading (.status true) got =>
      got.length < 4 ∧
        ∃ a, s.repliesSeen+(a+1) = total ∧ got++s.inbound = keepalives (a+1)++rest
    | .returned true => s.status = some (result terminal) ∧ s.inbound = rest
    | _ => False

variable {total : ℕ} {terminal : Terminal} {rest : List UInt8}

theorem draining_leave (hphase : s.phase = .leaving) (hs : Draining total terminal rest s) :
    Draining total terminal rest (step s turn) ∧ Falls s (step s turn) turn := by
  simp only [Draining, hphase] at hs
  obtain ⟨hsent,hdetail,hfinal,a,hseen,hin⟩ := hs
  have hstep : step s turn =
      if s.repliesSeen < s.keepalivesSent then { s with phase := .reading (.status true) [] }
      else succeed s := by rw [step, hphase]
  rw [hstep]
  cases a with
  | zero =>
    rw [if_neg (by omega)]
    refine ⟨⟨hsent,hdetail,hfinal,congrArg some hfinal,hin⟩,?_⟩
    exact falls_of_phase rfl hphase Nat.zero_lt_two
  | succ a =>
    rw [if_pos (by omega)]
    refine ⟨⟨hsent,hdetail,hfinal,by decide,a,hseen,hin⟩,?_⟩
    exact falls_of_phase rfl hphase (Nat.lt_succ_self 1)

theorem draining_step (hs : Draining total terminal rest s)
    (hopen : s.phase ≠ .returned true) (ht : Timely s turn) :
    Draining total terminal rest (step s turn) ∧ Falls s (step s turn) turn := by
  have hbefore := hs
  obtain ⟨hsent,hdetail,hfinal,hbefore⟩ := hbefore
  cases hphase : s.phase with
  | waiting | skipping drain remaining => simp only [hphase] at hbefore
  | leaving => exact draining_leave hphase hs
  | returned ok =>
    cases ok with
    | true => exact absurd hphase hopen
    | false => simp only [hphase] at hbefore
  | reading item got =>
    simp only [hphase] at hbefore
    cases item with
    | size drain | detail drain size | scrap drain remaining => exact hbefore.elim
    | status drain =>
      cases drain with
      | false => exact hbefore.elim
      | true =>
        obtain ⟨hgot,a,hseen,hin⟩ := hbefore
        have hsplit : keepalives (a+1)++rest = encode 4 statusKeepalive++(keepalives a++rest) :=
          List.append_assoc _ _ _
        refine reading_keeps hphase ht hgot (encode_length _) hin hs ?_ ?_
        · intro got' left hless happ
          exact ⟨hsent,hdetail,hfinal,hless,a,hseen,happ.trans hsplit.symm⟩
        · refine ⟨hsent,hdetail,hfinal,a,?_,rfl⟩
          show s.repliesSeen+1+a = total
          omega

end Drain

/-! ## The exchange -/

/-- What the peer sends: its answers in two parts, and its status between them. -/
def exchange (before after : ℕ) (terminal : Terminal) : List UInt8 :=
  keepalives before++(frame terminal++keepalives after)

/-- Over the whole run the caller sends this many keepalives. -/
def Sends (s : State) (schedule : ℕ → Turn) (count : ℕ) : Prop :=
  ∃ n, ∀ m, n ≤ m → (trace step s schedule m).keepalivesSent = count

def callOn (before after : ℕ) (terminal : Terminal) (rest stale : List UInt8) : State :=
  start (exchange before after terminal++rest) stale

/-- The exchange stays in sync. Whatever times out, is interrupted or comes in parts, when
the peer answers as many keepalives as the caller sends, before or after its status, the
call returns that status and leaves the stream right behind the exchange. The last error
is the detail up to its first zero byte, or empty for a detail too long to keep. -/
theorem exchange_in_sync (before after : ℕ) (terminal : Terminal) (rest stale : List UInt8)
    (schedule : ℕ → Turn) (hvalid : terminal.Valid)
    (htimely : ∀ n, Timely (trace step (callOn before after terminal rest stale) schedule n)
      (schedule n))
    (hfair : Fair Progress schedule)
    (hsends : Sends (callOn before after terminal rest stale) schedule (before+after)) :
    ∃ n, ∃ s, trace step (callOn before after terminal rest stale) schedule n = s ∧
      s.phase = .returned true ∧ s.status = some (result terminal) ∧ s.inbound = rest ∧
      protocolLastError s = (detailOf terminal).takeWhile fun b => b ≠ 0 := by
  have hstart : Approaching before terminal (keepalives after++rest)
      (trace step (callOn before after terminal rest stale) schedule 0) := by
    refine ⟨before,Nat.zero_add _,?_⟩
    show keepalives before++(frame terminal++keepalives after)++rest = _
    rw [List.append_assoc, List.append_assoc]
  obtain ⟨n,_,hwaited,hleaving⟩ := fair_reaches _ (fun s => s.phase = .leaving) rank schedule
    hstart (fun n hs hleft => approaching_step hvalid hs hleft (htimely n)) hfair
  -- the status is there: what has been sent by now is all that is ever sent
  have hsent : (trace step (callOn before after terminal rest stale) schedule n).keepalivesSent =
      before+after := by
    obtain ⟨k,hk⟩ := hsends
    have hpast : Past (trace step (callOn before after terminal rest stale) schedule n).phase := by
      rw [hleaving]
      trivial
    rw [← hk (max n k) (Nat.le_max_right n k)]
    exact (sent_settled (Nat.le_max_left n k) hpast).2.symm
  simp only [Approaching, hleaving] at hwaited
  obtain ⟨hseen,hfinal,hdetail,hin⟩ := hwaited
  have hdrain : Draining (before+after) terminal rest
      (trace step (callOn before after terminal rest stale) schedule n) := by
    refine ⟨hsent,hdetail,hfinal,?_⟩
    simp only [hleaving]
    exact ⟨after,by rw [hseen],hin⟩
  obtain ⟨m,_,hdrained,hreturned⟩ := fair_reaches _ (fun s => s.phase = .returned true) rank
    schedule hdrain (fun n hs hopen => draining_step hs hopen (htimely n)) hfair
  refine ⟨m,_,rfl,hreturned,?_⟩
  simp only [Draining, hreturned] at hdrained
  obtain ⟨_,hdetail,_,hstatus,hin⟩ := hdrained
  refine ⟨hstatus,hin,?_⟩
  rw [protocolLastError, hdetail]

def readable : Turn := ⟨false,false,false,false,.ready,true,.bytes 8⟩

def idle : Turn := ⟨false,false,false,false,.timeout,true,.retry⟩

theorem timely_readable {s : State} : Timely s readable :=
  ⟨rfl,rfl,rfl,rfl,by decide,by decide,by decide,fun _ => Or.inr (by decide)⟩

theorem fair_readable {schedule : ℕ → Turn} (h : ∀ n, schedule (n+1) = readable) :
    Fair Progress schedule := by
  intro n
  refine ⟨n+1,Nat.le_succ n,?_⟩
  rw [h n]
  exact ⟨.inr rfl,8,rfl⟩

/-- The caller times out once, and its keepalive is answered behind the status. -/
def late : ℕ → Turn
  | 0 => idle
  | _+1 => readable

theorem late_timely (n : ℕ) :
    Timely (trace step (callOn 0 1 (.errorDetail [65]) [7] []) late n) (late n) := by
  cases n with
  | zero =>
    refine ⟨rfl,rfl,rfl,rfl,by decide,by decide,by decide,fun hwaits => absurd rfl hwaits⟩
  | succ n => exact timely_readable

theorem late_sends : Sends (callOn 0 1 (.errorDetail [65]) [7] []) late (0+1) := by
  have hleaving : (trace step (callOn 0 1 (.errorDetail [65]) [7] []) late 5).phase = .leaving ∧
      (trace step (callOn 0 1 (.errorDetail [65]) [7] []) late 5).keepalivesSent = 1 := by
    decide
  have hpast : Past (trace step (callOn 0 1 (.errorDetail [65]) [7] []) late 5).phase := by
    trivial
  exact ⟨5,fun m hm => (sent_settled hm hpast).2.trans hleaving.2⟩

theorem late_answer_in_sync :
    ∃ n, ∃ s, trace step (callOn 0 1 (.errorDetail [65]) [7] []) late n = s ∧
      s.phase = .returned true ∧ s.status = some statusError ∧ s.inbound = [7] ∧
      protocolLastError s = [65] :=
  exchange_in_sync 0 1 (.errorDetail [65]) [7] [] late (Nat.le_of_ble_eq_true rfl) late_timely
    (fair_readable fun _ => rfl) late_sends

/-- A detail is cut at a zero byte. -/
theorem detail_cut_at_zero :
    let s := trace step (callOn 0 0 (.errorDetail [0,65]) [] []) (fun _ => readable) 6
    s.phase = .returned true ∧ s.status = some statusError ∧ s.keepalivesSent = 0 ∧
      s.inbound = [] ∧ protocolLastError s ≠ [0,65] := by
  decide

end FastSync.KeepaliveExchange
