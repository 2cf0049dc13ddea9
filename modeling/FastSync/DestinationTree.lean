import FastSync.DeleteReceiver
import FastSync.SaveEntry

/-!
# Deletions on the file system

The deletion engines work on the tree of directories below the receive root and
tell which positions they remove, in order. On the file system the root is
opened below the authorized root, the engine sees the tree as it is then, and
what it removes is unlinked.
-/

set_option autoImplicit false

namespace FastSync.DestinationTree
open FiniteTree (DirTree Entry)
open DeletePaths FileTree
open SystemCalls SecureWalk

section Tree

theorem length_le_depth {fs : Fs} {p : Position} (h : fs.node p ≠ none) : p.length ≤ depth fs := by
  by_cases hp : p = []
  · simp [hp]
  · have hmem := fs.tree.covered p hp h
    unfold depth
    generalize fs.tree.support = ps at hmem
    induction ps with
    | nil => cases hmem
    | cons q ps ih =>
      rcases List.mem_cons.mp hmem with rfl | hmem
      · exact le_max_left _ _
      · exact (ih hmem).trans (le_max_right _ _)

def entryAt (fs : Fs) (d : Position) (n : Name) : DeleteDirEntry :=
  ⟨n,decide (fs.node (d++[n]) = some .dir)⟩

def treeBelow (fs : Fs) (root : Position) : DirTree Name where
  entries d := (fs.tree.children (root++d)).map (entryAt fs (root++d))
  height d := depth fs+1-(root++d).length
  names_nodup := by
    intro d
    rw [List.map_map, show Entry.name ∘ entryAt fs (root++d) = id from rfl, List.map_id]
    exact List.nodup_dedup _
  height_lt := by
    intro d e he hdir
    obtain ⟨n,-,rfl⟩ := List.mem_map.mp he
    have hnode : fs.node (root++d++[n]) = some .dir := of_decide_eq_true hdir
    have hlen := length_le_depth (by rw [hnode]; simp)
    simp only [List.length_append, List.length_cons, List.length_nil, entryAt] at hlen ⊢
    omega

end Tree

section Engines

variable (pr : Process) (root : Bytes)

def openEach : List Bytes → Position → Sys (Except Errno Position)
  | [], fd => pure (.ok fd)
  | c::cs, fd =>
    if c = [dot,dot] then pure (.error .unset)
    else if c = [dot] then openEach cs fd
    else do
      match ← openDirAt fd c with
      | .error e => pure (.error e)
      | .ok next => openEach cs next

def utilsOpenAuthorizedDestination (authorized : Position) : Sys (Except Errno Position) :=
  if pathIsWithinRoot (absPath authorized) root = false then pure (.error .unset)
  else openEach (strtok (root.drop (absPath authorized).length)) authorized

def openDestinationRoot : Sys (Except Errno Position) :=
  match pr.authorizedRoot with
  | some authorized => utilsOpenAuthorizedDestination root authorized
  | none => query (openPathNoFollow root)

def removeAt (d : Position) (n : Name) : Sys Unit := do
  match ← statAt d n.1 with
  | .ok .dir =>
    let _ ← rmdirAt d n.1
    pure ()
  | .ok (.inode _ _) =>
    let _ ← unlinkAt d n.1
    pure ()
  | .error _ => pure ()

def removeEach (dir : Position) : List Position → Sys Unit
  | [] => pure ()
  | p::ps => do
    match p.getLast? with
    | none => pure ()
    | some n => removeAt (dir++p.dropLast) n
    removeEach dir ps

/-- An engine on the tree below the receive root. Its value is lost when the
root cannot be opened. -/
def onDestination {α : Type} (engine : DirTree Name → List Position × α) : Sys (Option α) := do
  match ← openDestinationRoot pr root with
  | .error _ => pure none
  | .ok dir =>
    let r ← (fun w => (engine (treeBelow w.fs dir), w) : Sys (List Position × α))
    removeEach dir r.1
    pure (some r.2)

end Engines

end FastSync.DestinationTree
