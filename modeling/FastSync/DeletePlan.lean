import Mathlib.Algebra.BigOperators.Group.List.Basic
import FastSync.DeletePaths

/-!
# The per-directory delete plans of the sender

The sender files every source entry under its parent directory, as a basename,
and later transmits one plan per directory: the root first, then each source
directory after its ancestors. Strings are kept as the code builds them.
-/

set_option autoImplicit false

namespace FastSync.DeletePlan
open DeletePaths

structure PlanNode where
  dir : Bytes
  files : List Bytes
  dirs : List Bytes
  sent : Bool
deriving DecidableEq, Repr

structure DeletePlanSender where
  nodes : List PlanNode
  configSent : Bool
  allSynced : Bool
  syncedDirs : Option (List Bytes)
  walkRoot : Option Bytes
  protectedPrefixes : List Bytes
  sizeSkipped : List Bytes
  missingArgs : List Bytes
  entries : ℕ
  fileEntries : ℕ

def deletePlanSenderCreate : DeletePlanSender :=
  ⟨[],false,true,none,none,[],[],[],0,0⟩

def listAddStrUnique (list : List Bytes) (value : Bytes) : List Bytes :=
  if value ∈ list then list else list++[value]

def planFind (sender : DeletePlanSender) (dir : Bytes) : Option PlanNode :=
  sender.nodes.find? fun node => decide (node.dir = dir)

def planEnsure (sender : DeletePlanSender) (dir : Bytes) : DeletePlanSender :=
  match planFind sender dir with
  | some _ => sender
  | none => { sender with nodes := ⟨dir,[],[],false⟩::sender.nodes }

def planUpdate (sender : DeletePlanSender) (dir : Bytes) (f : PlanNode → PlanNode) :
    DeletePlanSender :=
  { sender with nodes := sender.nodes.map fun node => if node.dir = dir then f node else node }

def addDirName (base : Bytes) (node : PlanNode) : PlanNode :=
  { node with dirs := listAddStrUnique node.dirs base }

def addFileName (base : Bytes) (node : PlanNode) : PlanNode :=
  { node with files := listAddStrUnique node.files base }

/-- The text before and after the last slash, when there is one. -/
def splitLast (path : Bytes) : Option (Bytes × Bytes) :=
  if slash ∈ path then
    some ((path.reverse.dropWhile fun b => decide (b ≠ slash)).tail.reverse,
      (path.reverse.takeWhile fun b => decide (b ≠ slash)).reverse)
  else none

def pathParentDir (path : Bytes) : Bytes :=
  match splitLast path with
  | none => [dot]
  | some (before, _) => if before = [] then [dot] else before

def pathBaseName (path : Bytes) : Bytes :=
  match splitLast path with
  | none => path
  | some (_, after) => after

def planCleanPath (path : Bytes) : Bytes :=
  ((path.dropWhile fun b => decide (b = slash)).reverse.dropWhile
    fun b => decide (b = slash)).reverse

/-- Enters every directory on the way up in the plan of its parent. The
argument bounds the loop; each round drops at least one byte. -/
def planEnsureAncestors : ℕ → DeletePlanSender → Bytes → DeletePlanSender
  | 0, sender, _ => sender
  | fuel+1, sender, current =>
    if current = [dot] then sender
    else
      let parent := pathParentDir current
      planEnsureAncestors fuel
        (planUpdate (planEnsure sender parent) parent (addDirName (pathBaseName current))) parent

def deletePlanSenderAdd (sender : DeletePlanSender) (path : Bytes) (isDir : Bool) :
    DeletePlanSender :=
  let clean := planCleanPath path
  if clean = [] then sender
  else
    let parent := pathParentDir clean
    let base := pathBaseName clean
    let sender := planEnsure sender parent
    let sender := if isDir then planEnsure (planUpdate sender parent (addDirName base)) clean
      else planUpdate sender parent (addFileName base)
    let sender := planEnsureAncestors (parent.length+1) sender parent
    { sender with
      entries := sender.entries+1
      fileEntries := sender.fileEntries+(if isDir then 0 else 1) }

def deletePlanSenderFinalize (sender : DeletePlanSender) (syncedDirs : Option (List Bytes))
    (walkRoot : Option Bytes) : DeletePlanSender :=
  { sender with
    syncedDirs := syncedDirs
    allSynced := syncedDirs.isNone && walkRoot.isNone
    walkRoot := walkRoot }

def deletePlanSenderSetConfig (sender : DeletePlanSender)
    (protectedPrefixes sizeSkipped missingArgs : List Bytes) : DeletePlanSender :=
  { sender with
    protectedPrefixes := protectedPrefixes
    sizeSkipped := sizeSkipped
    missingArgs := missingArgs }

def pathAtOrUnder (dir root : Bytes) : Bool :=
  root.isPrefixOf dir &&
    (match dir.drop root.length with
      | [] => true
      | b::_ => decide (b = slash))

def planIsAllowed (sender : DeletePlanSender) (dir : Bytes) : Bool :=
  if sender.allSynced then true
  else match sender.walkRoot with
    | some root => pathAtOrUnder dir root
    | none =>
      match sender.syncedDirs with
      | some dirs => decide (dir ∈ dirs)
      | none => false

structure PlanConfig where
  protectedPrefixes : List Bytes
  sizeSkipped : List Bytes
  missing : List Bytes
deriving DecidableEq, Repr

structure PlanFrame where
  config : Option PlanConfig
  apply : Bool
  dir : Bytes
  dirs : List Bytes
  files : List Bytes
deriving DecidableEq, Repr

def senderConfig (sender : DeletePlanSender) : Option PlanConfig :=
  if sender.configSent then none
  else some ⟨sender.protectedPrefixes,sender.sizeSkipped,sender.missingArgs⟩

def sendPlanNode (sender : DeletePlanSender) (node : PlanNode) :
    DeletePlanSender × List PlanFrame :=
  (planUpdate { sender with configSent := true } node.dir fun node => { node with sent := true },
    [⟨senderConfig sender,true,node.dir,node.dirs,node.files⟩])

def sendConfigOnly (sender : DeletePlanSender) : DeletePlanSender × List PlanFrame :=
  if sender.configSent then (sender, [])
  else ({ sender with configSent := true }, [⟨senderConfig sender,false,[dot],[],[]⟩])

def sendPrefixPlan (sender : DeletePlanSender) (dir : Bytes) :
    DeletePlanSender × List PlanFrame :=
  match planFind sender dir with
  | none => (sender, [])
  | some node =>
    if node.sent || !planIsAllowed sender dir then (sender, [])
    else sendPlanNode sender node

def sendEach (sender : DeletePlanSender) : List Bytes → DeletePlanSender × List PlanFrame
  | [] => (sender, [])
  | dir::dirs =>
    let r := sendPrefixPlan sender dir
    let rs := sendEach r.1 dirs
    (rs.1, r.2++rs.2)

def deletePlanSendRoot (sender : DeletePlanSender) : DeletePlanSender × List PlanFrame :=
  let root := sender.walkRoot.getD [dot]
  let r := sendConfigOnly (planEnsure sender root)
  let rs := sendPrefixPlan r.1 root
  (rs.1, r.2++rs.2)

/-- The leading directories of a path, at each slash and at the end. -/
def leadingDirs (clean : Bytes) (stop : ℕ) : List Bytes :=
  ((List.range' 1 stop).filter fun i =>
    decide (i = stop) || decide ((clean.drop i).head? = some slash)).map clean.take

def deletePlanSendForPath (sender : DeletePlanSender) (path : Bytes) (isDir : Bool) :
    DeletePlanSender × List PlanFrame :=
  let clean := planCleanPath path
  let r := if sender.walkRoot.isSome then (sender, []) else sendPrefixPlan sender [dot]
  let stop := if isDir then clean.length
    else match splitLast clean with
      | none => 0
      | some (before, _) => before.length
  let rs := sendEach r.1 (leadingDirs clean stop)
  (rs.1, r.2++rs.2)

def deletePlanSendRemaining (sender : DeletePlanSender) :
    List Bytes → DeletePlanSender × List PlanFrame
  | [] => (sender, [])
  | dir::dirs =>
    let r := deletePlanSendForPath sender dir true
    let rs := deletePlanSendRemaining r.1 dirs
    (rs.1, r.2++rs.2)

def deletePlanSendAll (sender : DeletePlanSender) (dirs : List Bytes) : List PlanFrame :=
  let r := deletePlanSendRoot sender
  r.2++(deletePlanSendRemaining r.1 dirs).2

end FastSync.DeletePlan
