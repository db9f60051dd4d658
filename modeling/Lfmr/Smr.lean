import Lfmr.Header

/-!
# The scan of `smr.c`

Each thread has `K` hazard pointers in the array `HP`, and a private list `rlist` of the nodes it has
retired. Once the list is long enough, `free_node_later` calls `scan`, which copies the array to `plist`
and then frees the nodes of `rlist` that are not in `plist`. The hazard pointers of the others may change while
it copies: one step is one access to `HP`, and each used slot is read twice.

`mr_next` links the nodes of `rlist` and is not touched otherwise, so the list is modelled as such.
That `bsearch` finds an element of the sorted `plist` if it is there is taken for granted here.
-/

namespace Lfmr.Smr

abbrev K : Nat := 2

def H (n : Nat) : Nat := K * n

def R (n : Nat) : Nat := 100 + 2 * H n

/-- The index `base + off` in `HP`; `off` is 0 or 1. -/
def slot {n : Nat} (thread : Fin n) (off : Bool) : Nat := thread.val * K + off.toNat

structure ThisThread where
  rlist : List NodeAddr
  retireCount : Nat

inductive ScanPc
  | test (i : Nat) (plist : List (Option NodeAddr))
  | copy (i : Nat) (plist : List (Option NodeAddr))
  | sweep (plist : List (Option NodeAddr)) (tmplist : List NodeAddr)

/-- The beginning of `free_node_later`. -/
def ThisThread.push (mine : ThisThread) (node : NodeAddr) : ThisThread :=
  ⟨node :: mine.rlist, mine.retireCount + 1⟩

def scanStep (n : Nat) (pointer : Nat → Option NodeAddr) (mine : ThisThread) :
    ScanPc → Option (ThisThread × ScanPc)
  | .test i plist =>
      if i < H n then
        match pointer i with
        | some _ => some (mine, .copy i plist)
        | none => some (mine, .test (i + 1) plist)
      else
        some (⟨[], 0⟩, .sweep plist mine.rlist)
  | .copy i plist => some (mine, .test (i + 1) (plist ++ [pointer i]))
  | .sweep plist (cur :: tmplist) =>
      if some cur ∈ plist then some (mine.push cur, .sweep plist tmplist) else none
  | .sweep _ [] => none

def ScanPc.unneeded : ScanPc → Option (NodeAddr × ScanPc)
  | .sweep plist (cur :: tmplist) =>
      if some cur ∈ plist then none else some (cur, .sweep plist tmplist)
  | _ => none

def ScanPc.isDone : ScanPc → Bool
  | .sweep _ [] => true
  | _ => false

end Lfmr.Smr
