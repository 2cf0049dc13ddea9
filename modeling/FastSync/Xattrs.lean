import FastSync.FilterSyntax
import FastSync.WireValues

/-!
# Extended attributes

The sender captures the attributes of a file within limits and sends each with
its lengths. The receiver has limits of its own, and takes only the names that
may be applied. Allocation succeeds on both sides.
-/

set_option autoImplicit false

namespace FastSync.Xattrs
open DeletePaths (Bytes)
open FilterSyntax (ascii)
open ByteReader WireValues

def xattrNameMax : ℕ := 255
def xattrValueMax : ℕ := 1024*1024
def xattrTotalMax : ℕ := 4*1024*1024
def xattrMaxCount : ℕ := 256

def userNamespace : Bytes := ascii "user."
def fakesuperXattr : Bytes := ascii "user.rsync.%stat"
def aclAccess : Bytes := ascii "system.posix_acl_access"
def aclDefault : Bytes := ascii "system.posix_acl_default"

structure FileXattr where
  name : Bytes
  value : Bytes
deriving DecidableEq, Repr

def xattrListAppend (list : List FileXattr) (x : FileXattr) : Option (List FileXattr) :=
  if list.length ≥ xattrMaxCount then none else some (list++[x])

def xattrNameAppliable (name : Bytes) (preserveAcls : Bool) : Bool :=
  if name = [] then false
  else if name.length > xattrNameMax then false
  else if name = fakesuperXattr then false
  else if userNamespace <+: name then name[5]?.isSome
  else if name = aclAccess then preserveAcls
  else if name = aclDefault then preserveAcls
  else false

def xattrNameIsPosixAcl (name : Bytes) : Bool := name = aclAccess || name = aclDefault

/-- The attributes of a file in the order the kernel lists them. -/
structure Attributes where
  names : List Bytes
  value : Bytes → Bytes
  named : ∀ n ∈ names, n ≠ [] ∧ 0 ∉ n

def listxattr (attrs : Attributes) : Bytes := attrs.names.flatMap (·++[0])

def getxattr (attrs : Attributes) (name : Bytes) : Option Bytes :=
  if attrs.names.contains name then some (attrs.value name) else none

/-- The value of an attribute that passes the checks of capture. -/
def captureValue (attrs : Attributes) (preserveAcls : Bool) (name : Bytes) (budget : ℕ) :
    Option Bytes :=
  if xattrNameAppliable name preserveAcls = false then none
  else (getxattr attrs name).filter fun value =>
    value.length ≤ xattrValueMax && name.length+value.length ≤ xattrTotalMax-budget

/-- One turn for each name in the buffer. -/
def captureLoop (attrs : Attributes) (preserveAcls : Bool) :
    ℕ → Bytes → List FileXattr → ℕ → Option (List FileXattr)
  | 0, _, list, _ => some list
  | fuel+1, names, list, budget =>
    let name := names.takeWhile (· ≠ 0)
    let rest := names.drop (name.length+1)
    if name = [] then some list
    else match captureValue attrs preserveAcls name budget with
      | none => captureLoop attrs preserveAcls fuel rest list budget
      | some value => match xattrListAppend list ⟨name,value⟩ with
        | none => none
        | some list =>
          captureLoop attrs preserveAcls fuel rest list (budget+(name.length+value.length))

def xattrCapturePath (attrs : Attributes) (preserveAcls : Bool) : Option (List FileXattr) :=
  let names := listxattr attrs
  if names = [] then none
  else (captureLoop attrs preserveAcls names.length names [] 0).filter (· ≠ [])

def sendEntry (x : FileXattr) : Bytes :=
  sendInt x.name.length++(x.name++(sendInt x.value.length++x.value))

def xattrSend (list : Option (List FileXattr)) : Option Bytes :=
  let items := list.getD []
  if items.any fun x => x.name.length > 2^31-1 || x.value.length > 2^31-1 then none
  else some (sendInt items.length++items.flatMap sendEntry)

def receiveEntries (preserveAcls : Bool) :
    ℕ → List FileXattr → ℕ → Reader Session (List FileXattr)
  | 0, list, _ => pure list
  | n+1, list, budget => do
    let nameLen ← receiveInt
    check (0 < nameLen ∧ nameLen ≤ xattrNameMax)
    let name ← take nameLen.toNat
    check (0 ∉ name)
    let appliable := xattrNameAppliable name preserveAcls
    check (appliable = true ∨ preserveAcls = false ∧ xattrNameIsPosixAcl name = true)
    let valueLen ← receiveInt
    check (0 ≤ valueLen ∧ valueLen ≤ xattrValueMax)
    check (nameLen.toNat+valueLen.toNat ≤ xattrTotalMax-budget)
    let value ← take valueLen.toNat
    let budget := budget+(nameLen.toNat+valueLen.toNat)
    if appliable = false then receiveEntries preserveAcls n list budget
    else match xattrListAppend list ⟨name,value⟩ with
      | none => fun _ _ => none
      | some list => receiveEntries preserveAcls n list budget

def xattrReceive (preserveAcls : Bool) : Reader Session (List FileXattr) := do
  let count ← receiveInt
  check (0 ≤ count ∧ count ≤ xattrMaxCount)
  receiveEntries preserveAcls count.toNat [] 0

def FileXattr.size (x : FileXattr) : ℕ := x.name.length+x.value.length

def total (list : List FileXattr) : ℕ := (list.map FileXattr.size).sum

/-- Appliable, and within the limits of a value and of a file beside what is kept. -/
def Carriable (acls : Bool) (kept : List FileXattr) (x : FileXattr) : Prop :=
  xattrNameAppliable x.name acls = true ∧ x.value.length ≤ xattrValueMax ∧
    total kept+x.size ≤ xattrTotalMax

instance (acls : Bool) (kept : List FileXattr) (x : FileXattr) : Decidable (Carriable acls kept x) :=
  inferInstanceAs (Decidable (_ ∧ _))

def keep (acls : Bool) (kept : List FileXattr) (x : FileXattr) : List FileXattr :=
  if Carriable acls kept x ∧ kept.length < xattrMaxCount then kept++[x] else kept

/-- What the limits allow of a list that is walked once. -/
def selection (acls : Bool) (xs : List FileXattr) : List FileXattr := xs.foldl (keep acls) []

/-- An attribute that could be carried is met when the number of entries is used up. -/
def Overruns (acls : Bool) : List FileXattr → List FileXattr → Prop
  | _, [] => False
  | kept, x::xs =>
    (Carriable acls kept x ∧ kept.length ≥ xattrMaxCount) ∨ Overruns acls (keep acls kept x) xs

/-- A list that capture makes. -/
structure Bounded (acls : Bool) (list : List FileXattr) : Prop where
  items : ∀ x ∈ list, xattrNameAppliable x.name acls = true ∧ x.value.length ≤ xattrValueMax ∧
    0 ∉ x.name
  size : total list ≤ xattrTotalMax
  count : list.length ≤ xattrMaxCount

def Attributes.item (attrs : Attributes) (name : Bytes) : FileXattr := ⟨name,attrs.value name⟩

def Attributes.items (attrs : Attributes) : List FileXattr := attrs.names.map attrs.item

theorem appliable_name {name : Bytes} {acls : Bool} (h : xattrNameAppliable name acls = true) :
    name ≠ fakesuperXattr ∧ (userNamespace <+: name ∨
      acls = true ∧ (name = aclAccess ∨ name = aclDefault)) := by
  unfold xattrNameAppliable at h
  split_ifs at h with _ _ hkey huser hacc hdef
  · exact ⟨hkey,.inl huser⟩
  · exact ⟨hkey,.inr ⟨h,.inl hacc⟩⟩
  · exact ⟨hkey,.inr ⟨h,.inr hdef⟩⟩

theorem appliable_length {name : Bytes} {acls : Bool} (h : xattrNameAppliable name acls = true) :
    name ≠ [] ∧ name.length ≤ xattrNameMax := by
  unfold xattrNameAppliable at h
  split_ifs at h <;> exact ⟨‹_›,by omega⟩

theorem total_append (list : List FileXattr) (x : FileXattr) : total (list++[x]) = total list+x.size := by
  simp [total]

section Capture
variable {acls : Bool} {kept : List FileXattr}

theorem Bounded.next {x : FileXattr} {list : List FileXattr} (h : Bounded acls (kept++x::list)) :
    Carriable acls kept x ∧ kept.length < xattrMaxCount := by
  obtain ⟨happly,hvalue,-⟩ := h.items x (by simp)
  have hsize := h.size
  have hcount := h.count
  simp only [total,List.map_append,List.map_cons,List.sum_append,List.sum_cons,
    List.length_append,List.length_cons] at hsize hcount
  exact ⟨⟨happly,hvalue,by rw [total]; omega⟩,by omega⟩

theorem bounded_keep (h : Bounded acls kept) {x : FileXattr} (hx : 0 ∉ x.name) :
    Bounded acls (keep acls kept x) := by
  unfold keep
  split_ifs with hk
  · obtain ⟨⟨hname,hvalue,htotal⟩,hcount⟩ := hk
    refine ⟨?_,by rwa [total_append],by simpa using Nat.succ_le_of_lt hcount⟩
    intro y hy
    rcases List.mem_append.mp hy with hy | hy
    · exact h.items y hy
    · rw [List.mem_singleton.mp hy]
      exact ⟨hname,hvalue,hx⟩
  · exact h

theorem bounded_selection {xs : List FileXattr} (h : Bounded acls kept) (hx : ∀ x ∈ xs, 0 ∉ x.name) :
    Bounded acls (xs.foldl (keep acls) kept) := by
  induction xs generalizing kept with
  | nil => exact h
  | cons x xs ih => exact ih (bounded_keep h (hx x (by simp))) fun y hy => hx y (.tail _ hy)

theorem keep_length (xs : List FileXattr) : kept.length ≤ (xs.foldl (keep acls) kept).length := by
  induction xs generalizing kept with
  | nil => exact le_rfl
  | cons x xs ih =>
    refine le_trans ?_ ih
    unfold keep
    split_ifs <;> simp

theorem overruns_selection {xs : List FileXattr} (h : Overruns acls kept xs) :
    xattrMaxCount ≤ (xs.foldl (keep acls) kept).length := by
  induction xs generalizing kept with
  | nil => exact h.elim
  | cons x xs ih =>
    rcases h with ⟨-,h⟩ | h
    · exact le_trans h (keep_length (x::xs))
    · exact ih h

variable (attrs : Attributes)

theorem captureValue_eq {n : Bytes} (hn : n ∈ attrs.names) (htotal : total kept ≤ xattrTotalMax) :
    captureValue attrs acls n (total kept) =
      if Carriable acls kept (attrs.item n) then some (attrs.value n) else none := by
  have hroom : n.length+(attrs.value n).length ≤ xattrTotalMax-total kept ↔
      total kept+(n.length+(attrs.value n).length) ≤ xattrTotalMax := by omega
  rw [captureValue,getxattr,if_pos (List.contains_iff_mem.mpr hn),Option.filter_some]
  by_cases happly : xattrNameAppliable n acls = true <;>
    simp [Carriable,Attributes.item,FileXattr.size,happly,hroom]

open Classical in
/-- The loop gives up at the first attribute too many, and with it everything. -/
theorem captureLoop_eq (ns : List Bytes) (hns : ∀ n ∈ ns, n ∈ attrs.names) (fuel : ℕ)
    (hfuel : (ns.flatMap (·++[0])).length ≤ fuel) (kept : List FileXattr)
    (htotal : total kept ≤ xattrTotalMax) :
    captureLoop attrs acls fuel (ns.flatMap (·++[0])) kept (total kept) =
      if Overruns acls kept (ns.map attrs.item) then none
      else some ((ns.map attrs.item).foldl (keep acls) kept) := by
  induction ns generalizing fuel kept with
  | nil => cases fuel <;> simp [captureLoop,Overruns]
  | cons n ns ih =>
    have hmem := hns n (by simp)
    obtain ⟨hn,hzero⟩ := attrs.named n hmem
    obtain _ | fuel := fuel
    · simp at hfuel
    have hlen : (ns.flatMap (·++[0])).length ≤ fuel := by
      simp only [List.flatMap_cons,List.length_append,List.length_singleton] at hfuel
      omega
    have hname : ((n::ns).flatMap (·++[0])).takeWhile (· ≠ 0) = n := by
      rw [List.flatMap_cons,List.append_assoc,List.takeWhile_append_of_pos]
      · simp
      · intro b hb
        exact decide_eq_true (fun h0 => hzero (h0 ▸ hb))
    have hdrop : ((n::ns).flatMap (·++[0])).drop (n.length+1) = ns.flatMap (·++[0]) := by
      rw [List.flatMap_cons]
      exact List.drop_left' (by simp)
    have hnext := ih (fun m hm => hns m (.tail _ hm)) fuel hlen
    rw [captureLoop,hname,hdrop,if_neg hn,captureValue_eq attrs hmem htotal,List.map_cons,
      List.foldl_cons]
    by_cases hc : Carriable acls kept (attrs.item n)
    · rw [if_pos hc]
      by_cases hcount : kept.length ≥ xattrMaxCount
      · simp [xattrListAppend,hcount,Overruns,hc]
      · have hkeep : keep acls kept (attrs.item n) = kept++[attrs.item n] :=
          if_pos ⟨hc,not_le.mp hcount⟩
        have hkept := hnext (kept++[attrs.item n]) (by rw [total_append]; exact hc.2.2)
        rw [total_append] at hkept
        simp only [xattrListAppend,Overruns,hkeep,hcount,and_false,false_or]
        exact hkept
    · have hkeep : keep acls kept (attrs.item n) = kept := if_neg fun h => hc h.1
      simp only [Overruns,hkeep,hc,false_and,false_or]
      exact hnext kept htotal

open Classical in
theorem xattrCapturePath_eq : xattrCapturePath attrs acls =
    if Overruns acls [] attrs.items then none
    else (some (selection acls attrs.items)).filter (· ≠ []) := by
  have hloop := @captureLoop_eq acls attrs attrs.names (fun _ h => h) _ le_rfl [] (Nat.zero_le _)
  rw [xattrCapturePath,Attributes.items]
  by_cases hnames : attrs.names = []
  · simp [listxattr,hnames,Overruns,selection,Option.filter_some]
  · have hlist : listxattr attrs ≠ [] := by
      obtain ⟨n,ns,hn⟩ := List.exists_cons_of_ne_nil hnames
      simp [listxattr,hn]
    rw [if_neg hlist]
    show Option.filter _ (captureLoop attrs acls _ _ [] (total [])) = _
    rw [listxattr,hloop]
    split_ifs <;> rfl

theorem bounded_capture : Bounded acls ((xattrCapturePath attrs acls).getD []) := by
  have hnil : Bounded acls [] := ⟨nofun,Nat.zero_le _,Nat.zero_le _⟩
  have hsel : Bounded acls (selection acls attrs.items) := by
    refine bounded_selection hnil fun x hx => ?_
    obtain ⟨n,hn,rfl⟩ := List.mem_map.mp hx
    exact (attrs.named n hn).2
  rw [xattrCapturePath_eq]
  split_ifs
  · exact hnil
  · rw [Option.filter_some]
    split_ifs
    · exact hsel
    · exact hnil

end Capture

section Wire
variable {acls : Bool} (s : Session)

theorem reads_entries (list kept : List FileXattr) (h : Bounded acls (kept++list)) :
    Reads (receiveEntries acls list.length kept (total kept)) s (list.flatMap sendEntry)
      (kept++list) s := by
  induction list generalizing kept with
  | nil =>
    rw [List.append_nil]
    exact reads_pure kept s
  | cons x list ih =>
    have hnext : kept++x::list = (kept++[x])++list := by simp
    obtain ⟨⟨happly,hvalue,hsize⟩,hcount⟩ := h.next
    obtain ⟨hne,hname⟩ := appliable_length happly
    have hpos := List.length_pos_iff.mpr hne
    have hroom : x.name.length+x.value.length ≤ xattrTotalMax-total kept := by
      rw [FileXattr.size] at hsize
      omega
    have hint : ∀ n : ℕ, n ≤ xattrValueMax → Reads receiveInt s (sendInt n) n s := by
      intro n hn
      simp only [xattrValueMax] at hn
      exact reads_int ⟨by omega,by omega⟩ s
    have hbody := ih (kept++[x]) (hnext ▸ h)
    rw [total_append] at hbody
    rw [List.flatMap_cons,hnext,sendEntry,List.append_assoc,List.append_assoc,List.append_assoc]
    refine reads_bind (hint _ (le_trans hname (by decide))) (reads_check ⟨by omega,by omega⟩ ?_)
    refine reads_bind (reads_take x.name s)
      (reads_check (h.items x (by simp)).2.2 (reads_check (.inl happly) ?_))
    refine reads_bind (hint _ hvalue) (reads_check ⟨by omega,by omega⟩ (reads_check hroom ?_))
    refine reads_bind (reads_take x.value s) ?_
    rw [if_neg (by simp [happly])]
    simp only [xattrListAppend,if_neg (not_le.mpr hcount)]
    exact hbody

theorem yields_entries (n budget : ℕ) (list : List FileXattr)
    (h : ∀ x ∈ list, xattrNameAppliable x.name acls = true) :
    Yields (receiveEntries acls n list budget) fun out =>
      ∀ x ∈ out, xattrNameAppliable x.name acls = true := by
  induction n generalizing list budget with
  | zero => exact yields_pure h
  | succ n ih =>
    refine yields_bind fun nameLen => yields_check fun _ => yields_bind fun name =>
      yields_check fun _ => yields_check fun _ => yields_bind fun valueLen => yields_check fun _ =>
        yields_check fun _ => yields_bind fun value => ?_
    split_ifs with happly
    · exact ih _ list h
    · unfold xattrListAppend
      split_ifs
      · exact nofun
      · refine ih _ _ fun x hx => ?_
        rcases List.mem_append.mp hx with hx | hx
        · exact h x hx
        · rw [List.mem_singleton.mp hx]
          simpa using happly

/-- Capture makes what the limits allow unless one more attribute could be carried
when their number is used up: then it carries none. What it makes arrives, and
the receiver takes no other names from anyone. -/
theorem xattrs_carried_iff (attrs : Attributes) :
    (xattrCapturePath attrs acls = (some (selection acls attrs.items)).filter (· ≠ []) ↔
      ¬Overruns acls [] attrs.items) ∧
    (∃ frame, xattrSend (xattrCapturePath attrs acls) = some frame ∧
      Reads (xattrReceive acls) s frame ((xattrCapturePath attrs acls).getD []) s) ∧
    Yields (xattrReceive acls) fun list => ∀ x ∈ list, x.name ≠ fakesuperXattr ∧
      (userNamespace <+: x.name ∨ acls = true ∧ (x.name = aclAccess ∨ x.name = aclDefault)) := by
  have hb : Bounded acls _ := bounded_capture attrs
  refine ⟨?_,?_,?_⟩
  · rw [xattrCapturePath_eq]
    split_ifs with hover
    · have hlen := overruns_selection hover
      have hne : selection acls attrs.items ≠ [] := by
        intro h
        rw [selection] at h
        simp [h,xattrMaxCount] at hlen
      simp [Option.filter_some,hne,hover]
    · simp [hover]
  · refine ⟨sendInt ((xattrCapturePath attrs acls).getD []).length++
      ((xattrCapturePath attrs acls).getD []).flatMap sendEntry,?_,?_⟩
    · refine if_neg ?_
      simp only [List.any_eq_true,not_exists,not_and,Bool.or_eq_true,decide_eq_true_eq]
      intro x hx
      obtain ⟨happly,hvalue,-⟩ := hb.items x hx
      have hname := (appliable_length happly).2
      simp only [xattrNameMax,xattrValueMax] at hname hvalue
      omega
    · have hcount := hb.count
      simp only [xattrMaxCount] at hcount
      exact reads_bind (reads_int ⟨by omega,by omega⟩ s)
        (reads_check ⟨by omega,by simp only [xattrMaxCount]; omega⟩ (reads_entries s _ [] hb))
  · refine yields_bind fun count => yields_check fun _ => ?_
    intro bs t list rest t' hread x hx
    exact appliable_name (yields_entries _ 0 [] nofun bs t list rest t' hread x hx)

end Wire

/-- Without the two lists that depend on `--acls`. -/
def withoutAcls (list : List FileXattr) : List FileXattr :=
  list.filter fun x => xattrNameAppliable x.name false

theorem acl_of_refused {name : Bytes} (h : xattrNameAppliable name true = true)
    (hf : xattrNameAppliable name false = false) : xattrNameIsPosixAcl name = true := by
  unfold xattrNameAppliable at h hf
  split_ifs at h hf <;> simp_all [xattrNameIsPosixAcl]

theorem maps_entries (n budget : ℕ) (list : List FileXattr) :
    Maps (receiveEntries true n list budget) (receiveEntries false n (withoutAcls list) budget)
      withoutAcls := by
  induction n generalizing list budget with
  | zero =>
    rintro bs s a rest s' ⟨⟩
    rfl
  | succ n ih =>
    refine maps_bind fun nameLen => maps_check id fun _ => maps_bind fun name =>
      maps_check id fun _ => maps_check ?_ fun happly => maps_bind fun valueLen =>
        maps_check id fun _ => maps_check id fun _ => maps_bind fun value => ?_
    · intro h
      cases hkeep : xattrNameAppliable name false with
      | true => exact .inl rfl
      | false => exact .inr ⟨rfl,acl_of_refused (by simpa using h) hkeep⟩
    · rw [if_neg (by simpa using happly)]
      by_cases hfull : list.length ≥ xattrMaxCount
      · simp only [xattrListAppend,if_pos hfull]
        exact nofun
      · have hroom : ¬(withoutAcls list).length ≥ xattrMaxCount := fun h =>
          hfull (le_trans h (List.length_filter_le _ _))
        have hnext := ih (budget+(nameLen.toNat+valueLen.toNat)) (list++[⟨name,value⟩])
        simp only [xattrListAppend,if_neg hfull,if_neg hroom]
        cases hkeep : xattrNameAppliable name false <;>
          simpa [withoutAcls,hkeep] using hnext

/-- A receiver without `--acls` takes every block that one with `--acls` takes, to
the same byte, and misses only the two lists. -/
theorem acls_dropped : Maps (xattrReceive true) (xattrReceive false) withoutAcls :=
  maps_bind fun count => maps_check id fun _ => maps_entries count.toNat 0 []

/-- The attributes that are met as one too many come after a full list. -/
theorem overruns_full {acls : Bool} (xs : List FileXattr) {kept : List FileXattr} {x : FileXattr}
    (h : Bounded acls (kept++xs)) (hcount : (kept++xs).length = xattrMaxCount)
    (hx : Carriable acls (kept++xs) x) : Overruns acls kept (xs++[x]) := by
  induction xs generalizing kept with
  | nil =>
    rw [List.append_nil] at hcount hx
    exact .inl ⟨hx,hcount.ge⟩
  | cons y xs ih =>
    have hnext : kept++y::xs = (kept++[y])++xs := by simp
    right
    rw [keep,if_pos h.next]
    exact ih (hnext ▸ h) (hnext ▸ hcount) (hnext ▸ hx)

def crowdItem (i : ℕ) : FileXattr := ⟨userNamespace++[.ofNat (1+i/16),.ofNat (1+i%16)],[]⟩

/-- One attribute more than a list may hold, all without a value. -/
def crowd : Attributes where
  names := (List.range 257).map fun i => (crowdItem i).name
  value _ := []
  named := by decide +kernel

theorem crowd_total (n : ℕ) : total ((List.range n).map crowdItem) = 7*n := by
  have hsize : ∀ i, (crowdItem i).size = 7 := fun _ => rfl
  simp [total,Function.comp_def,hsize,mul_comm]

theorem crowd_items : crowd.items = (List.range 256).map crowdItem++[crowdItem 256] := by
  have hall : crowd.items = (List.range (256+1)).map crowdItem := by
    simp [Attributes.items,Attributes.item,crowd,crowdItem]
  rw [hall,List.range_succ,List.map_append,List.map_singleton]

/-- Of 257 small attributes none is captured, where 256 could be. -/
theorem crowd_not_captured :
    xattrCapturePath crowd false = none ∧ 256 ≤ (selection false crowd.items).length := by
  have happly : ∀ i, xattrNameAppliable (crowdItem i).name false = true := by
    intro i
    simp [xattrNameAppliable,crowdItem,userNamespace,fakesuperXattr,ascii,xattrNameMax]
  have hover : Overruns false [] crowd.items := by
    rw [crowd_items]
    refine overruns_full _ ⟨?_,?_,?_⟩ ?_ ⟨happly 256,Nat.zero_le _,?_⟩
    · intro x hx
      have hmem : x ∈ crowd.items := by
        rw [crowd_items]
        exact List.mem_append_left _ hx
      obtain ⟨n,hn,rfl⟩ := List.mem_map.mp hmem
      obtain ⟨i,-,hi⟩ := List.mem_map.mp hx
      exact ⟨hi ▸ happly i,Nat.zero_le _,(crowd.named n hn).2⟩
    · exact (crowd_total 256).trans_le (by decide)
    · simp [xattrMaxCount]
    · simp [xattrMaxCount]
    · rw [List.nil_append,crowd_total]
      decide
  exact ⟨by rw [xattrCapturePath_eq,if_pos hover],overruns_selection hover⟩

end FastSync.Xattrs
