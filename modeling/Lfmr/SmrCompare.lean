import Lfmr.Smr
import Lfmr.SortLibrary

/-!
# The order of `plist` in `smr.c`

`scan` sorts the hazard pointers with `qsort` and looks each retired node up with `bsearch`, both with
the difference of two pointers as the comparator. The difference counts nodes of 32 bytes, and is cut
down to an `int`.

Here the copy of the array is given, so the nodes that one scan frees and keeps are a function of it.
Addresses are numbers, with 0 for `NULL`.
-/

namespace Lfmr.Smr

open Lfmr.SortLibrary

/-- `(int)(*(node_t**)a - *(node_t**)b)`. -/
def compare (a b : Nat) : Int := (Int.shiftRight ((a : Int) - b) 5).bmod (2 ^ 32)

/-- What `malloc` returns for a `node_t`. -/
structure IsBlock (a : Nat) : Prop where
  aligned : 16 ∣ a
  pos : 0 < a
  bound : a + 32 ≤ 2 ^ 47

def Apart (a b : Nat) : Prop := a = b ∨ a + 32 ≤ b ∨ b + 32 ≤ a

/-- Stage 1 of `scan`, while the array does not change. -/
def nonNull (hp : List NodeAddr) : List NodeAddr := hp.filter (· ≠ 0)

def sweep (found : NodeAddr → Bool) : List NodeAddr → ThisThread → ThisThread × List NodeAddr
  | [], mine => (mine, [])
  | cur :: tmplist, mine =>
      if found cur then sweep found tmplist (mine.push cur)
      else
        let result := sweep found tmplist mine
        (result.1, cur :: result.2)

/-- Stages 2 and 3 of `scan`. -/
def scan (library : Functions compare) (plist : List NodeAddr) (mine : ThisThread) :
    ThisThread × List NodeAddr :=
  sweep (fun cur => library.bsearch cur (library.qsort plist)) mine.rlist ⟨[], 0⟩

/-- `free_node_later`, with what the scan would copy from the array. -/
def freeNodeLater (n : Nat) (library : Functions compare) (plist : List NodeAddr) (mine : ThisThread)
    (node : NodeAddr) : ThisThread :=
  if R n ≤ (mine.push node).retireCount then (scan library plist (mine.push node)).1
  else mine.push node

/-- One scan does what it is for: it frees the retired nodes that are not in the array, keeps the others
on the list once each, and counts them. -/
structure ScanRight (library : Functions compare) (hp rlist : List NodeAddr) : Prop where
  freed : (scan library (nonNull hp) ⟨rlist, rlist.length⟩).2 = rlist.filter (· ∉ hp)
  kept : (scan library (nonNull hp) ⟨rlist, rlist.length⟩).1.rlist.Perm (rlist.filter (· ∈ hp))
  counted : (scan library (nonNull hp) ⟨rlist, rlist.length⟩).1.retireCount =
    (scan library (nonNull hp) ⟨rlist, rlist.length⟩).1.rlist.length

/-- The comparator is good for each retired node among the hazard pointers: it is consistent, and takes
a node that is not among them for none of them. -/
def Ordered (plist rlist : List NodeAddr) : Prop :=
  ∀ node ∈ rlist, Consistent compare (node :: plist) ∧
    (node ∉ plist → ∀ pointer ∈ plist, compare node pointer ≠ 0)

/-- What a thread can have in `this_thread` after calls of `free_node_later` and scans at exit, if each
scan meets an ordered list. It retires no node that is still on its list. -/
inductive RetireRun (n : Nat) (library : Functions compare) : ThisThread → Prop
  | init : RetireRun n library ⟨[], 0⟩
  | call {mine : ThisThread} (node : NodeAddr) (plist : List NodeAddr) :
      RetireRun n library mine → node ∉ mine.rlist → plist.length ≤ H n →
      (R n ≤ (mine.push node).retireCount → Ordered plist (mine.push node).rlist) →
      RetireRun n library (freeNodeLater n library plist mine node)
  | exit {mine : ThisThread} (plist : List NodeAddr) :
      RetireRun n library mine → plist.length ≤ H n → Ordered plist mine.rlist →
      RetireRun n library (scan library plist mine).1

end Lfmr.Smr
