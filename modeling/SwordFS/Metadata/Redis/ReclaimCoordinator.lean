import SwordFS.Infra.Prog
import SwordFS.Metadata.Types

/-!
# 回収の結果の確定

`RedisReclaimCoordinator.cpp` を写す。EXEC の返事が失われた回収は、
inode を読み直して、消えたか、名前を得たか、まだ回収できるかを確かめる。
-/

namespace SwordFS.Metadata

open Infra

variable {ε σ : Type}

/-- `RunReclaimWithOutcomeReconciliation` の loop。`ambiguous` は直前の曖昧な結果 -/
def reclaimLoop (attemptReclaim : Prog ε σ (Result Unit))
    (lookupInode : Prog ε σ (Result SwordFsInode)) : Nat → Status → Prog ε σ (Result Unit)
  | 0, ambiguous => pure (.error ambiguous)
  | attempts + 1, _ => do
    match ← attemptReclaim with
    | .ok () => pure (.ok ())
    | .error e =>
      if !e.isOutcomeUnknown then pure (.error e)
      else match ← lookupInode with
        | .error e' =>
          -- inode の key が無ければ、回収は後戻りできない所を過ぎている
          if e'.isNotFound then pure (.ok ()) else pure (.error e')
        | .ok inode =>
          -- 名前を得た inode は、もう回収の対象ではない
          if inode.attr.nlink ≠ 0 then pure (.ok ())
          else reclaimLoop attemptReclaim lookupInode attempts e

def runReclaimWithOutcomeReconciliation (maxAttempts : Nat)
    (attemptReclaim : Prog ε σ (Result Unit)) (lookupInode : Prog ε σ (Result SwordFsInode)) :
    Prog ε σ (Result Unit) :=
  if maxAttempts = 0 then
    pure (.error (.invalidArgument "invalid Redis reclaim reconciliation inputs"))
  else reclaimLoop attemptReclaim lookupInode maxAttempts (.outcomeUnknown "")

end SwordFS.Metadata
