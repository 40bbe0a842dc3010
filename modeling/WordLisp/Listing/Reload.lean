import WordLisp.Listing.Basic

/-!
# Redundant loads

A load that directly follows a store of the same register to the same place changes nothing.
`Listing.dropReloads` removes such loads. Each record is compared with the last one kept, so
that a row of loads behind one store goes in a single pass. A tag in between keeps the load,
because control may come to it from elsewhere.
-/

namespace WordLisp

/-- The two instructions have the same kind of argument, an offset, and the same one. -/
def Instruction.samePlace : Instruction → Instruction → Bool
  | addressed _ a, addressed _ b => a = b
  | frame _ a, frame _ b => a = b
  | _, _ => false

/-- `load` reads back into the same register what `store` has just written. -/
def Instruction.reloads (store load : Instruction) : Bool :=
  samePlace store load && store.opcode.loadFor? = some load.opcode

/-- The second record is a load that the first makes redundant. -/
def Record.reloads : Record → Record → Bool
  | .instruction store, .instruction load => store.reloads load
  | _, _ => false

namespace Listing

/-- Drops the redundant loads of a listing that stands behind the record `last`. -/
def dropReloadsAfter (last : Record) : Listing → Listing
  | [] => []
  | record :: rest =>
    if last.reloads record then dropReloadsAfter last rest
    else record :: dropReloadsAfter record rest

def dropReloads : Listing → Listing
  | [] => []
  | record :: rest => record :: dropReloadsAfter record rest

end Listing

end WordLisp
