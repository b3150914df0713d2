/-
# `Flowgen.Cache.Basic` — errors and watch events of a cache (`core/src/cache.rs`)
-/
import Mathlib

namespace Flowgen.Cache

/-- `CacheError`, without the errors of the transport, which carry what the
backend said. -/
inductive CacheError
  | alreadyExists
  | revisionMismatch (expected actual : Nat)
  | notFound
  | failed (operation : String)
deriving DecidableEq

/-- A single event of a watch subscription, with values of type `B`. -/
inductive WatchEvent (B : Type)
  | put (key : String) (value : B)
  | delete (key : String)
deriving DecidableEq

def WatchEvent.key {B : Type} : WatchEvent B → String
  | .put key _ => key
  | .delete key => key

end Flowgen.Cache
