import Jackdaw.Relay.Segment

/-!
# Main — startup, nonces, pruning

`main.py`: the startup reset, the nonce the middleware issues after a response, and the pruning
loop's body.  Each runs in a session of its own.
-/

namespace Jackdaw

open Support

/-- `_reset_processing_orders`. -/
inductive ResetPc where
  | orders
  | authzs
  | commit

def resetSeg : ResetPc → Seg ResetPc
  | .orders => { write := [.resetOrders], next := .goto .authzs }
  | .authzs => { write := [.resetAuthzs], next := .goto .commit }
  | .commit => { commit := true, next := .serve }

/-- `generate_nonce`. -/
inductive NoncePc where
  | count
  | commit (value : String) (row : Nonce)

def nonceSeg (cfg : Settings) (db : Db) (now : Int) (ch : Choice) : NoncePc → Seg NoncePc
  | .count =>
      if nonceCapReached cfg db.nonces then .stop else .goto (.commit ch.token ⟨false, now⟩)
  | .commit value row => { write := [.insertNonce value row], commit := true, next := .stop }

/-- `prune_nonces`. -/
inductive PrunePc where
  | delete (cutoff : Int)
  | commit

def pruneSeg : PrunePc → Seg PrunePc
  | .delete cutoff => { write := [.pruneNonces cutoff], next := .goto .commit }
  | .commit => { commit := true, next := .stop }

end Jackdaw
