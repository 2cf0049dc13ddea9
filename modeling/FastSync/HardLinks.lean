import Mathlib.Algebra.Ring.Nat
import Mathlib.Data.List.Nodup
import FastSync.SourceRemoval

/-!
# The hard-link groups of a transfer

With `--hard-links` the scanner looks every regular file up in a table of
(device, inode) pairs. The first path of a file is sent with its payload and
each later one as a sibling that names it. The table belongs to the prepared
scanner, so a pass that scans the source twice with it meets its own entries.
-/

set_option autoImplicit false

namespace FastSync.HardLinks
open SourceRemoval (CheckReply)

/-- A source path the scanner emits, with the answer the receiver gives when it
is asked whether it has the file. -/
structure SourceEntry where
  wirePath : List UInt8
  regular : Bool
  device : ℕ
  inode : ℕ
  check : CheckReply
deriving DecidableEq, Repr

def SameFile (a b : SourceEntry) : Prop := a.device = b.device ∧ a.inode = b.inode

structure Scan where
  entries : List SourceEntry
  paths_nodup : (entries.map SourceEntry.wirePath).Nodup

structure HardLinkItem where
  device : ℕ
  inode : ℕ
  gid : ℕ
  firstPath : List UInt8
deriving DecidableEq, Repr

/-- The detection table. Group ids start at one: zero marks a file outside any
group. -/
structure HardLinkTable where
  items : List HardLinkItem
  nextGid : ℕ
  nextGid_pos : 0 < nextGid
  gid_pos : ∀ item ∈ items, 0 < item.gid

def intMax : ℕ := 2^31-1

def hardlinkTableCreate : HardLinkTable where
  items := []
  nextGid := 1
  nextGid_pos := by decide
  gid_pos := by simp

def hardlinkTableFind (table : HardLinkTable) (device inode : ℕ) : Option HardLinkItem :=
  table.items.find? fun item => decide (item.device = device) && decide (item.inode = inode)

def hardlinkTableAdd (table : HardLinkTable) (e : SourceEntry) : HardLinkTable where
  items := table.items++[⟨e.device,e.inode,table.nextGid,e.wirePath⟩]
  nextGid := table.nextGid+1
  nextGid_pos := Nat.succ_pos _
  gid_pos := by
    intro item hitem
    rcases List.mem_append.mp hitem with h | h
    · exact table.gid_pos item h
    · rw [List.mem_singleton.mp h]
      exact table.nextGid_pos

/-- The verdict on one file: its group, whether it is the first of it, and the
path of the first. An exhausted `int` counter assigns nothing. -/
def hardlinkTableAssign (table : HardLinkTable) (e : SourceEntry) :
    Option (ℕ × Bool × List UInt8) × HardLinkTable :=
  match hardlinkTableFind table e.device e.inode with
  | some item => (some (item.gid, false, item.firstPath), table)
  | none =>
    if table.nextGid ≤ intMax then
      (some (table.nextGid, true, e.wirePath), hardlinkTableAdd table e)
    else (none, table)

structure File where
  source : SourceEntry
  linkGroup : ℕ
  linkFirst : Bool
  hardlinkTarget : Option (List UInt8)
deriving DecidableEq, Repr

def fileCreate (e : SourceEntry) : File := ⟨e,0,false,none⟩

/-- The file with its group, the table after it, and whether the scan is still
sound. -/
def scannerAssignHardlink (table : HardLinkTable) (e : SourceEntry) : File × HardLinkTable × Bool :=
  match hardlinkTableAssign table e with
  | (none, table') => (fileCreate e, table', false)
  | (some (gid, isFirst, firstPath), table') =>
    (⟨e,gid,isFirst,if isFirst then none else some firstPath⟩, table', true)

/-- One emitted entry. The `--dirs` listing never looks at the table. -/
def scannerEmit (dirs : Bool) (table : HardLinkTable) (e : SourceEntry) :
    File × HardLinkTable × Bool :=
  if !dirs && e.regular then scannerAssignHardlink table e else (fileCreate e, table, true)

structure ScanResult where
  files : List File
  table : HardLinkTable
  ok : Bool

/-- A whole scan: a failed assignment marks the scanner and the file is emitted
all the same. -/
def directoryScan (dirs : Bool) : HardLinkTable → List SourceEntry → ScanResult
  | table, [] => ⟨[],table,true⟩
  | table, e::es =>
    let r := scannerEmit dirs table e
    let rest := directoryScan dirs r.2.1 es
    ⟨r.1::rest.files,rest.table,r.2.2 && rest.ok⟩

inductive DeleteTiming where
  | none
  | before
  | during
  | delay
  | after
deriving DecidableEq, Repr

structure Mode where
  multithreaded : Bool
  timing : DeleteTiming
  dirs : Bool
  useIncremental : Bool
deriving DecidableEq, Repr

def deletePerDir (timing : DeleteTiming) : Bool :=
  decide (timing = .during) || decide (timing = .delay)

/-- The table the data scan starts with. Without `-m` the per-directory delete
modes scan twice with one prepared scanner; with `-m` the pre-scan prepares its
own and discards it. -/
def dataTable (mode : Mode) (prescan : ScanResult) : HardLinkTable :=
  if deletePerDir mode.timing && !mode.multithreaded then prescan.table else hardlinkTableCreate

/-- The files of the data pass. `committed` tells whether the early manifest or
the plans went out; a failed pre-scan ends the transfer before any data, and
`--delete-before` replays its pre-scan. -/
def dataPass (mode : Mode) (committed : Bool) (prescan data : Scan) : List File :=
  let pre := directoryScan mode.dirs hardlinkTableCreate prescan.entries
  match mode.timing with
  | .none | .after => (directoryScan mode.dirs hardlinkTableCreate data.entries).files
  | .before => if pre.ok && committed then pre.files else []
  | .during | .delay =>
    if pre.ok && committed then (directoryScan mode.dirs (dataTable mode pre) data.entries).files
    else []

def isSibling (f : File) : Bool := decide (f.linkGroup ≠ 0) && !f.linkFirst && f.hardlinkTarget.isSome

/-- The data of a regular file follows its frame unless the receiver's check
makes that unnecessary. -/
def sendsPayload (useIncremental : Bool) (f : File) : Bool :=
  !isSibling f && f.source.regular && (!useIncremental || decide (f.source.check = .transfer))

/-- Every sibling names an earlier entry of another path that carries the
payload of the same file. -/
def StreamFounded (useIncremental : Bool) (sent : List File) : Prop :=
  ∀ done s rest, sent = done++s::rest → isSibling s = true →
    ∃ f ∈ done, s.hardlinkTarget = some f.source.wirePath ∧
      f.source.wirePath ≠ s.source.wirePath ∧ sendsPayload useIncremental f = true ∧
      SameFile f.source s.source

def FirstOfGroup (f : File) : Prop := f.linkGroup ≠ 0 ∧ f.linkFirst = true

/-- The receiver asks for the data of each first file that a later entry of the
stream is a link to. -/
def FirstsWanted (sent : List File) : Prop :=
  ∀ done s rest, sent = done++s::rest → s.source.regular = true →
    ∀ f ∈ done, FirstOfGroup f → SameFile f.source s.source → f.source.check = .transfer

section Table
variable (table : HardLinkTable) (e : SourceEntry) (device inode : ℕ)

theorem hardlinkTableFind_add :
    hardlinkTableFind (hardlinkTableAdd table e) device inode =
      (hardlinkTableFind table device inode).or
        (if e.device = device ∧ e.inode = inode then
          some ⟨e.device,e.inode,table.nextGid,e.wirePath⟩ else none) := by
  unfold hardlinkTableFind hardlinkTableAdd
  rw [List.find?_append]
  congr 1
  by_cases h : e.device = device ∧ e.inode = inode
  · simp [h]
  · rw [if_neg h, List.find?_cons_of_neg]
    · rfl
    · simpa using h

theorem hardlinkTableFind_opened
    (h : hardlinkTableFind table e.device e.inode = none) :
    hardlinkTableFind (hardlinkTableAdd table e) e.device e.inode =
      some ⟨e.device,e.inode,table.nextGid,e.wirePath⟩ := by
  rw [hardlinkTableFind_add, h]
  simp

theorem hardlinkTableFind_gid {item : HardLinkItem}
    (h : hardlinkTableFind table device inode = some item) : item.gid ≠ 0 :=
  Nat.ne_of_gt (table.gid_pos item (List.mem_of_find?_eq_some h))

/-- What the scanner makes of one entry: it is not subject to grouping, its file
is in the table, it opens a group, or the group ids are used up. -/
theorem scannerEmit_cases (dirs : Bool) :
    ((dirs = true ∨ e.regular = false) ∧ scannerEmit dirs table e = (fileCreate e, table, true)) ∨
    (dirs = false ∧ e.regular = true ∧
      ((∃ item, hardlinkTableFind table e.device e.inode = some item ∧
          scannerEmit dirs table e = (⟨e,item.gid,false,some item.firstPath⟩, table, true)) ∨
        (hardlinkTableFind table e.device e.inode = none ∧
          scannerEmit dirs table e = (⟨e,table.nextGid,true,none⟩, hardlinkTableAdd table e, true)) ∨
        (hardlinkTableFind table e.device e.inode = none ∧
          scannerEmit dirs table e = (fileCreate e, table, false)))) := by
  by_cases hsub : dirs = false ∧ e.regular = true
  · obtain ⟨hd,hr⟩ := hsub
    refine .inr ⟨hd,hr,?_⟩
    have hemit : scannerEmit dirs table e = scannerAssignHardlink table e := by
      simp [scannerEmit, hd, hr]
    rw [hemit]
    unfold scannerAssignHardlink hardlinkTableAssign
    cases hf : hardlinkTableFind table e.device e.inode with
    | some item => exact .inl ⟨item,rfl,rfl⟩
    | none =>
      by_cases hg : table.nextGid ≤ intMax
      · exact .inr (.inl ⟨rfl,by simp [hg]⟩)
      · exact .inr (.inr ⟨rfl,by simp [hg]⟩)
  · refine .inl ⟨?_,?_⟩
    · cases dirs <;> cases hr : e.regular <;> simp_all
    · cases dirs <;> cases hr : e.regular <;> simp_all [scannerEmit]

variable {table device inode}

theorem scannerEmit_source (dirs : Bool) : (scannerEmit dirs table e).1.source = e := by
  rcases scannerEmit_cases table e dirs with ⟨-,h⟩ | ⟨-,-,⟨item,-,h⟩ | ⟨-,h⟩ | ⟨-,h⟩⟩ <;> rw [h] <;> rfl

theorem scannerEmit_keeps {dirs : Bool} {item : HardLinkItem}
    (h : hardlinkTableFind table device inode = some item) :
    hardlinkTableFind (scannerEmit dirs table e).2.1 device inode = some item := by
  rcases scannerEmit_cases table e dirs with ⟨-,he⟩ | ⟨-,-,⟨_,-,he⟩ | ⟨-,he⟩ | ⟨-,he⟩⟩ <;> rw [he]
  · exact h
  · exact h
  · rw [hardlinkTableFind_add, h]
    rfl
  · exact h

theorem scannerEmit_known {item : HardLinkItem} (hr : e.regular = true)
    (h : hardlinkTableFind table e.device e.inode = some item) :
    isSibling (scannerEmit false table e).1 = true ∧
      (scannerEmit false table e).1.hardlinkTarget = some item.firstPath := by
  rcases scannerEmit_cases table e false with ⟨hsub,-⟩ | ⟨-,-,⟨it,hit,he⟩ | ⟨hn,-⟩ | ⟨hn,-⟩⟩
  · simp [hr] at hsub
  · rw [h] at hit
    cases hit
    have hg := hardlinkTableFind_gid table e.device e.inode h
    rw [he]
    simp [isSibling, hg]
  · rw [h] at hn
    cases hn
  · rw [h] at hn
    cases hn

theorem scannerEmit_sibling {dirs : Bool} (h : isSibling (scannerEmit dirs table e).1 = true) :
    dirs = false ∧ e.regular = true ∧
      ∃ item, hardlinkTableFind table e.device e.inode = some item ∧
        (scannerEmit dirs table e).1.hardlinkTarget = some item.firstPath := by
  rcases scannerEmit_cases table e dirs with ⟨-,he⟩ | ⟨hd,hr,⟨item,hit,he⟩ | ⟨-,he⟩ | ⟨-,he⟩⟩
  · rw [he] at h
    cases h
  · refine ⟨hd,hr,item,hit,?_⟩
    rw [he]
  · rw [he] at h
    simp [isSibling] at h
  · rw [he] at h
    cases h

end Table

section Scan
variable (dirs : Bool) (table : HardLinkTable) (es : List SourceEntry)

theorem directoryScan_sources : (directoryScan dirs table es).files.map File.source = es := by
  induction es generalizing table with
  | nil => rfl
  | cons e es ih =>
    simp only [directoryScan, List.map_cons]
    rw [scannerEmit_source, ih]

theorem directoryScan_take (n : ℕ) :
    (directoryScan dirs table es).files.take n = (directoryScan dirs table (es.take n)).files := by
  induction es generalizing table n with
  | nil => simp [directoryScan]
  | cons e es ih =>
    cases n with
    | zero => simp [directoryScan]
    | succ n => simp [directoryScan, ih]

theorem directoryScan_split (done rest : List File) {s : File}
    (h : (directoryScan dirs table es).files = done++s::rest) :
    ∃ pre e post, es = pre++e::post ∧ done = (directoryScan dirs table pre).files ∧
      s = (scannerEmit dirs (directoryScan dirs table pre).table e).1 := by
  induction es generalizing table done with
  | nil =>
    rw [directoryScan] at h
    simp at h
  | cons e es ih =>
    cases done with
    | nil =>
      obtain ⟨hs,-⟩ := List.cons.inj h
      exact ⟨[],e,es,rfl,rfl,hs.symm⟩
    | cons f done =>
      obtain ⟨hf,ht⟩ := List.cons.inj h
      obtain ⟨pre,e1,post,hes,hdone,hs⟩ := ih _ done ht
      refine ⟨e::pre,e1,post,by rw [hes, List.cons_append],?_,hs⟩
      rw [directoryScan, ← hf, hdone]

theorem directoryScan_append {pre post : List SourceEntry} {e : SourceEntry} :
    ∃ rest, (directoryScan dirs table (pre++e::post)).files =
      (directoryScan dirs table pre).files++
        (scannerEmit dirs (directoryScan dirs table pre).table e).1::rest := by
  induction pre generalizing table with
  | nil => exact ⟨_,rfl⟩
  | cons a pre ih =>
    obtain ⟨rest,hrest⟩ := ih (scannerEmit dirs table a).2.1
    refine ⟨rest,?_⟩
    simp only [List.cons_append, directoryScan]
    rw [hrest]

variable {table es}

theorem directoryScan_keeps (device inode : ℕ) (item : HardLinkItem)
    (h : hardlinkTableFind table device inode = some item) :
    hardlinkTableFind (directoryScan dirs table es).table device inode = some item := by
  induction es generalizing table with
  | nil => exact h
  | cons e es ih => exact ih (scannerEmit_keeps e h)

/-- Where a table entry comes from: the table the scan started with, or a file
the scan emitted as the first of a group. -/
theorem directoryScan_origin {device inode : ℕ} {item : HardLinkItem}
    (h : hardlinkTableFind (directoryScan dirs table es).table device inode = some item) :
    hardlinkTableFind table device inode = some item ∨
      ∃ f ∈ (directoryScan dirs table es).files, f.source.regular = true ∧
        f.source.device = device ∧ f.source.inode = inode ∧
        f.source.wirePath = item.firstPath ∧ FirstOfGroup f := by
  induction es generalizing table with
  | nil => exact .inl h
  | cons e es ih =>
    rcases ih h with hstart | ⟨f,hf,hrest⟩
    · rcases scannerEmit_cases table e dirs with ⟨-,he⟩ | ⟨-,hr,⟨_,-,he⟩ | ⟨-,he⟩ | ⟨-,he⟩⟩
      · rw [he] at hstart
        exact .inl hstart
      · rw [he] at hstart
        exact .inl hstart
      · rw [he, hardlinkTableFind_add, Option.or_eq_some_iff] at hstart
        rcases hstart with hstart | ⟨-,hnew⟩
        · exact .inl hstart
        · right
          split_ifs at hnew with hkey
          cases hnew
          refine ⟨(scannerEmit dirs table e).1,List.mem_cons_self,?_⟩
          rw [he]
          exact ⟨hr,hkey.1,hkey.2,rfl,Nat.ne_of_gt table.nextGid_pos,rfl⟩
      · rw [he] at hstart
        exact .inl hstart
    · exact .inr ⟨f,List.mem_cons_of_mem _ hf,hrest⟩

theorem directoryScan_first {f : File} (hf : f ∈ (directoryScan dirs table es).files)
    (hfirst : FirstOfGroup f) :
    ∃ item, hardlinkTableFind (directoryScan dirs table es).table f.source.device
      f.source.inode = some item ∧ item.firstPath = f.source.wirePath := by
  induction es generalizing table with
  | nil =>
    cases hf
  | cons e es ih =>
    rcases List.mem_cons.mp hf with rfl | hf
    · rcases scannerEmit_cases table e dirs with ⟨-,he⟩ | ⟨-,-,⟨_,-,he⟩ | ⟨hn,he⟩ | ⟨-,he⟩⟩ <;>
        rw [he] at hfirst
      · exact absurd rfl hfirst.1
      · exact absurd hfirst.2 Bool.false_ne_true
      · refine ⟨⟨e.device,e.inode,table.nextGid,e.wirePath⟩,?_,?_⟩
        · show hardlinkTableFind (directoryScan dirs (scannerEmit dirs table e).2.1 es).table _ _ = _
          apply directoryScan_keeps
          rw [he]
          exact hardlinkTableFind_opened table e hn
        · rw [scannerEmit_source]
      · exact absurd rfl hfirst.1
    · exact ih hf

theorem directoryScan_known {f : File} {item : HardLinkItem}
    (hf : f ∈ (directoryScan false table es).files) (hr : f.source.regular = true)
    (h : hardlinkTableFind table f.source.device f.source.inode = some item) :
    isSibling f = true := by
  induction es generalizing table with
  | nil =>
    cases hf
  | cons e es ih =>
    rcases List.mem_cons.mp hf with rfl | hf
    · rw [scannerEmit_source] at hr h
      exact (scannerEmit_known e hr h).1
    · exact ih hf (scannerEmit_keeps e h)

theorem directoryScan_records (hok : (directoryScan false table es).ok = true)
    {p : SourceEntry} (hp : p ∈ es) (hr : p.regular = true) :
    ∃ item, hardlinkTableFind (directoryScan false table es).table p.device p.inode = some item := by
  induction es generalizing table with
  | nil => cases hp
  | cons e es ih =>
    rw [directoryScan, Bool.and_eq_true] at hok
    rcases List.mem_cons.mp hp with rfl | hp
    · have hnow : ∃ item,
          hardlinkTableFind (scannerEmit false table p).2.1 p.device p.inode = some item := by
        rcases scannerEmit_cases table p false with ⟨hsub,-⟩ | ⟨-,-,⟨item,hit,he⟩ | ⟨hn,he⟩ | ⟨-,he⟩⟩
        · simp [hr] at hsub
        · exact ⟨item,by rw [he]; exact hit⟩
        · rw [he]
          exact ⟨_,hardlinkTableFind_opened table p hn⟩
        · rw [he] at hok
          cases hok.1
      obtain ⟨item,hitem⟩ := hnow
      refine ⟨item,?_⟩
      show hardlinkTableFind (directoryScan false (scannerEmit false table p).2.1 es).table _ _ = _
      exact directoryScan_keeps false _ _ item hitem
    · exact ih hok.2 hp

/-- Group ids are handed out in order. -/
def Numbered (table : HardLinkTable) : Prop :=
  table.items.map HardLinkItem.gid = List.range' 1 (table.nextGid-1)

theorem numbered_add (h : Numbered table) (e : SourceEntry) : Numbered (hardlinkTableAdd table e) := by
  have hnext : table.nextGid-1+1 = table.nextGid := Nat.sub_add_cancel table.nextGid_pos
  show (table.items++[_]).map HardLinkItem.gid = List.range' 1 table.nextGid
  rw [List.map_append, h, ← hnext, List.range'_concat]
  simp [add_comm]

theorem numbered_scan (h : Numbered table) : Numbered (directoryScan dirs table es).table := by
  induction es generalizing table with
  | nil => exact h
  | cons e es ih =>
    apply ih
    rcases scannerEmit_cases table e dirs with ⟨-,he⟩ | ⟨-,-,⟨_,-,he⟩ | ⟨-,he⟩ | ⟨-,he⟩⟩ <;> rw [he]
    · exact h
    · exact h
    · exact numbered_add h e
    · exact h

theorem directoryScan_group {f : File} (hf : f ∈ (directoryScan dirs table es).files)
    (hgroup : f.linkGroup ≠ 0) :
    ∃ item, hardlinkTableFind (directoryScan dirs table es).table f.source.device
      f.source.inode = some item ∧ item.gid = f.linkGroup := by
  induction es generalizing table with
  | nil => cases hf
  | cons e es ih =>
    rcases List.mem_cons.mp hf with rfl | hf
    · have hnow : ∃ item, hardlinkTableFind (scannerEmit dirs table e).2.1 e.device e.inode =
          some item ∧ item.gid = (scannerEmit dirs table e).1.linkGroup := by
        rcases scannerEmit_cases table e dirs with ⟨-,he⟩ | ⟨-,-,⟨item,hit,he⟩ | ⟨hn,he⟩ | ⟨-,he⟩⟩ <;>
          rw [he] at hgroup ⊢
        · exact absurd rfl hgroup
        · exact ⟨item,hit,rfl⟩
        · exact ⟨_,hardlinkTableFind_opened table e hn,rfl⟩
        · exact absurd rfl hgroup
      obtain ⟨item,hitem,hgid⟩ := hnow
      refine ⟨item,?_,hgid⟩
      rw [scannerEmit_source]
      show hardlinkTableFind (directoryScan dirs (scannerEmit dirs table e).2.1 es).table _ _ = _
      exact directoryScan_keeps dirs _ _ item hitem
    · exact ih hf

/-- Two files are in one group exactly when they are one file, and a group has
one first path. -/
def Partitioned (files : List File) : Prop :=
  ∀ f ∈ files, ∀ g ∈ files, f.linkGroup ≠ 0 → g.linkGroup ≠ 0 →
    (f.linkGroup = g.linkGroup ↔ SameFile f.source g.source) ∧
    (SameFile f.source g.source → f.linkFirst = true → g.linkFirst = true →
      f.source.wirePath = g.source.wirePath)

theorem link_groups_partition (dirs : Bool) (es : List SourceEntry) :
    Partitioned (directoryScan dirs hardlinkTableCreate es).files := by
  intro f hf g hg hf0 hg0
  have hnum : Numbered (directoryScan dirs hardlinkTableCreate es).table :=
    numbered_scan dirs rfl
  obtain ⟨a,ha,hfa⟩ := directoryScan_group dirs hf hf0
  obtain ⟨b,hb,hgb⟩ := directoryScan_group dirs hg hg0
  refine ⟨⟨fun h => ?_,fun h => ?_⟩,fun h hff hgf => ?_⟩
  · have hab : a = b := List.inj_on_of_nodup_map (hnum ▸ List.nodup_range')
      (List.mem_of_find?_eq_some ha) (List.mem_of_find?_eq_some hb) (by rw [hfa, hgb, h])
    have hka := List.find?_some ha
    have hkb := List.find?_some hb
    simp only [Bool.and_eq_true, decide_eq_true_eq] at hka hkb
    rw [← hab] at hkb
    exact ⟨hka.1.symm.trans hkb.1,hka.2.symm.trans hkb.2⟩
  · rw [h.1, h.2, hb] at ha
    cases ha
    rw [← hfa, hgb]
  · obtain ⟨c,hc,hcf⟩ := directoryScan_first dirs hf ⟨hf0,hff⟩
    obtain ⟨d,hd,hdg⟩ := directoryScan_first dirs hg ⟨hg0,hgf⟩
    rw [h.1, h.2, hd] at hc
    cases hc
    rw [← hcf, hdg]

end Scan

section Stream
variable {table : HardLinkTable} {es : List SourceEntry} {useIncremental : Bool}

theorem mem_directoryScan {dirs : Bool} {f : File}
    (hf : f ∈ (directoryScan dirs table es).files) : f.source ∈ es := by
  have h := List.mem_map_of_mem hf (f := File.source)
  rwa [directoryScan_sources] at h

theorem path_ne (hnodup : (es.map SourceEntry.wirePath).Nodup) (pre post : List SourceEntry)
    (a e : SourceEntry) (hes : es = pre++e::post) (ha : a ∈ pre) : a.wirePath ≠ e.wirePath := by
  rw [hes, List.map_append, List.map_cons, List.nodup_append] at hnodup
  exact hnodup.2.2 a.wirePath (List.mem_map_of_mem ha) e.wirePath List.mem_cons_self

/-- A founded stream meets no file that its starting table knows: all paths of
such a file are siblings and nothing carries its payload. -/
theorem unknown_of_founded (hfounded : StreamFounded useIncremental (directoryScan false table es).files)
    (e : SourceEntry) (he : e ∈ es) (hr : e.regular = true) :
    hardlinkTableFind table e.device e.inode = none := by
  cases hfind : hardlinkTableFind table e.device e.inode with
  | none => rfl
  | some item =>
    exfalso
    obtain ⟨pre,post,rfl⟩ := List.append_of_mem he
    obtain ⟨rest,hrest⟩ := directoryScan_append false table
    have hknown : hardlinkTableFind (directoryScan false table pre).table e.device e.inode =
        some item := directoryScan_keeps false _ _ item hfind
    obtain ⟨f,hf,-,-,hpay,hdev,hino⟩ := hfounded _ _ rest hrest (scannerEmit_known e hr hknown).1
    rw [scannerEmit_source] at hdev hino
    rw [← hdev, ← hino] at hfind
    simp only [sendsPayload, Bool.and_eq_true, Bool.not_eq_true'] at hpay
    have hsib := directoryScan_known hf hpay.1.2 hfind
    rw [hpay.1.1] at hsib
    cases hsib

section
variable (hnodup : (es.map SourceEntry.wirePath).Nodup)
include hnodup

theorem wanted_of_founded (hfounded : StreamFounded true (directoryScan false table es).files) :
    FirstsWanted (directoryScan false table es).files := by
  intro done s rest hsent hs f hf hfirst hsame
  obtain ⟨pre,e,post,rfl,rfl,rfl⟩ := directoryScan_split false table es done rest hsent
  rw [scannerEmit_source] at hs hsame
  obtain ⟨item,hitem,hpath⟩ := directoryScan_first false hf hfirst
  rw [hsame.1, hsame.2] at hitem
  obtain ⟨hsib,htarget⟩ := scannerEmit_known e hs hitem
  obtain ⟨g,hg,hgtarget,-,hpay,-⟩ := hfounded _ _ rest hsent hsib
  -- the target is the path of `f`, and paths are not repeated
  have hgf : g.source.wirePath = f.source.wirePath := by
    rw [htarget, hpath] at hgtarget
    exact (Option.some.inj hgtarget).symm
  have hmem : ∀ x ∈ (directoryScan false table pre).files, x.source ∈ pre++e::post := fun x hx =>
    List.mem_append_left _ (mem_directoryScan hx)
  rw [← List.inj_on_of_nodup_map hnodup (hmem g hg) (hmem f hf) hgf]
  simp only [sendsPayload, Bool.and_eq_true, Bool.not_true, Bool.false_or, decide_eq_true_eq] at hpay
  exact hpay.2

theorem founded_of_unknown
    (hunknown : ∀ e ∈ es, e.regular = true → hardlinkTableFind table e.device e.inode = none)
    (hwanted : useIncremental = true → FirstsWanted (directoryScan false table es).files) :
    StreamFounded useIncremental (directoryScan false table es).files := by
  intro done s rest hsent hsib
  obtain ⟨pre,e,post,hes,rfl,rfl⟩ := directoryScan_split false table es done rest hsent
  obtain ⟨-,hr,item,hitem,htarget⟩ := scannerEmit_sibling e hsib
  have he : e ∈ es := by
    rw [hes]
    exact List.mem_append_right _ List.mem_cons_self
  rcases directoryScan_origin false hitem with hstart | ⟨f,hf,hfr,hdev,hino,hpath,hfirst⟩
  · rw [hunknown e he hr] at hstart
    cases hstart
  · have hsame : SameFile f.source e := ⟨hdev,hino⟩
    refine ⟨f,hf,?_,?_,?_,?_⟩
    · rw [htarget, hpath]
    · rw [scannerEmit_source]
      exact path_ne hnodup pre post f.source e hes (mem_directoryScan hf)
    · have hcheck : useIncremental = false ∨ f.source.check = .transfer := by
        cases hinc : useIncremental with
        | false => exact .inl rfl
        | true =>
          refine .inr (hwanted hinc _ _ rest hsent ?_ f hf hfirst ?_) <;> rw [scannerEmit_source]
          · exact hr
          · exact hsame
      rcases hcheck with h | h <;> simp [sendsPayload, isSibling, hfirst.2, hfr, h]
    · rw [scannerEmit_source]
      exact hsame

theorem directoryScan_founded_iff :
    StreamFounded useIncremental (directoryScan false table es).files ↔
      (∀ e ∈ es, e.regular = true → hardlinkTableFind table e.device e.inode = none) ∧
        (useIncremental = true → FirstsWanted (directoryScan false table es).files) := by
  constructor
  · intro hfounded
    refine ⟨unknown_of_founded hfounded,?_⟩
    rintro rfl
    exact wanted_of_founded hnodup hfounded
  · rintro ⟨hunknown,hwanted⟩
    exact founded_of_unknown hnodup hunknown hwanted

end

end Stream

section Passes
variable (mode : Mode) (committed : Bool) (prescan data : Scan)

/-- The pre-scan leaves its files in the table of the data scan. -/
def SharesTable : Prop :=
  mode.dirs = false ∧ mode.multithreaded = false ∧ deletePerDir mode.timing = true

def Prescanned : Prop :=
  (directoryScan mode.dirs hardlinkTableCreate prescan.entries).ok = true ∧ committed = true

theorem listing_plain (table : HardLinkTable) (es : List SourceEntry) :
    (directoryScan true table es).files = es.map fileCreate := by
  induction es generalizing table with
  | nil => rfl
  | cons e es ih =>
    rw [directoryScan, List.map_cons]
    simp [scannerEmit, ih]

theorem plain_founded {useIncremental : Bool} (es : List SourceEntry) :
    StreamFounded useIncremental (es.map fileCreate) ∧ FirstsWanted (es.map fileCreate) := by
  have hplain : ∀ f ∈ es.map fileCreate, f.linkGroup = 0 := by
    intro f hf
    obtain ⟨e,-,rfl⟩ := List.mem_map.mp hf
    rfl
  refine ⟨?_,?_⟩
  · intro done s rest hsent hsib
    have hzero := hplain s (by rw [hsent]; simp)
    simp [isSibling, hzero] at hsib
  · intro done s rest hsent _ f hf hfirst
    exact absurd (hplain f (by rw [hsent]; exact List.mem_append_left _ hf)) hfirst.1

theorem prescan_unknown_iff {es : List SourceEntry} {e : SourceEntry}
    (hok : (directoryScan false hardlinkTableCreate es).ok = true) :
    hardlinkTableFind (directoryScan false hardlinkTableCreate es).table e.device e.inode = none ↔
      ∀ p ∈ es, p.regular = true → ¬SameFile p e := by
  constructor
  · rintro hnone p hp hr ⟨hdev,hino⟩
    obtain ⟨item,hitem⟩ := directoryScan_records hok hp hr
    rw [hdev, hino, hnone] at hitem
    cases hitem
  · intro hdiffer
    cases hfind : hardlinkTableFind (directoryScan false hardlinkTableCreate es).table
        e.device e.inode with
    | none => rfl
    | some item =>
      rcases directoryScan_origin false hfind with hempty | ⟨f,hf,hr,hdev,hino,-⟩
      · cases hempty
      · exact absurd ⟨hdev,hino⟩ (hdiffer f.source (mem_directoryScan hf) hr)

theorem scan_founded_iff (table : HardLinkTable) (scan : Scan) (n : ℕ) :
    StreamFounded mode.useIncremental ((directoryScan mode.dirs table scan.entries).files.take n) ↔
      (mode.dirs = false → ∀ e ∈ scan.entries.take n, e.regular = true →
        hardlinkTableFind table e.device e.inode = none) ∧
      (mode.useIncremental = true →
        FirstsWanted ((directoryScan mode.dirs table scan.entries).files.take n)) := by
  rw [directoryScan_take]
  cases mode.dirs with
  | true =>
    rw [listing_plain]
    obtain ⟨hfounded,hwanted⟩ := plain_founded (scan.entries.take n)
    exact ⟨fun _ => ⟨nofun,fun _ => hwanted⟩,fun _ => hfounded⟩
  | false =>
    have hnodup : ((scan.entries.take n).map SourceEntry.wirePath).Nodup := by
      rw [List.map_take]
      exact scan.paths_nodup.sublist (List.take_sublist _ _)
    rw [directoryScan_founded_iff hnodup]
    simp

theorem empty_founded {useIncremental : Bool} : StreamFounded useIncremental [] ∧ FirstsWanted [] :=
  plain_founded []

theorem fresh_founded_iff (scan : Scan) (n : ℕ) :
    StreamFounded mode.useIncremental
        ((directoryScan mode.dirs hardlinkTableCreate scan.entries).files.take n) ↔
      (mode.useIncremental = true → FirstsWanted
        ((directoryScan mode.dirs hardlinkTableCreate scan.entries).files.take n)) := by
  rw [scan_founded_iff]
  have hempty : ∀ device inode, hardlinkTableFind hardlinkTableCreate device inode = none :=
    fun _ _ => rfl
  simp [hempty]

/-- The data pass is one scan with a new table, or nothing after a failed
pre-scan, or the second of the two scans of a per-directory deletion. -/
theorem dataPass_cases :
    (deletePerDir mode.timing = false ∧ ∃ scan : Scan, dataPass mode committed prescan data =
      (directoryScan mode.dirs hardlinkTableCreate scan.entries).files) ∨
    (¬Prescanned mode committed prescan ∧ dataPass mode committed prescan data = []) ∨
    (deletePerDir mode.timing = true ∧ Prescanned mode committed prescan ∧
      dataPass mode committed prescan data = (directoryScan mode.dirs (dataTable mode
        (directoryScan mode.dirs hardlinkTableCreate prescan.entries)) data.entries).files) := by
  have hpre : ((directoryScan mode.dirs hardlinkTableCreate prescan.entries).ok && committed) = true ↔
      Prescanned mode committed prescan := Bool.and_eq_true_iff
  unfold dataPass
  cases mode.timing with
  | none | after => exact .inl ⟨rfl,data,rfl⟩
  | before =>
    by_cases h : Prescanned mode committed prescan
    · exact .inl ⟨rfl,prescan,if_pos (hpre.mpr h)⟩
    · exact .inr (.inl ⟨h,if_neg (fun hc => h (hpre.mp hc))⟩)
  | during | delay =>
    by_cases h : Prescanned mode committed prescan
    · exact .inr (.inr ⟨rfl,h,if_pos (hpre.mpr h)⟩)
    · exact .inr (.inl ⟨h,if_neg (fun hc => h (hpre.mp hc))⟩)

end Passes

def soleScan : Scan := ⟨[⟨[97],true,1,7,.transfer⟩],by decide⟩

end FastSync.HardLinks
