/-
Keys of containers and frames.
-/

namespace ChainScript

/-- A label or a position.  A label never equals a position, so a container can
hold both `0` and `"0"`. -/
inductive Key where
  | badge (name : String)
  | index (position : UInt64)
deriving Repr, DecidableEq

namespace Key

def isIndex : Key → Bool
  | .index _ => true
  | .badge _ => false

/-- The key in messages: labels bare, positions as digits. -/
def text : Key → String
  | .badge name => name
  | .index position => toString position.toNat

end Key

end ChainScript
