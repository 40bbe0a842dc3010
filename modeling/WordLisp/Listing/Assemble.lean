import WordLisp.Instruction.Encoding
import WordLisp.Listing.Basic

/-!
# Assembling

Every record that is not a tag becomes one word. A tag stands for the number of words in front
of it, which `Listing.tags` finds before any instruction is encoded.
-/

namespace WordLisp.Listing

/-- The tags of a listing and the offset each stands for, in the order of their definition. -/
abbrev TagTable := List (String × Word)

/-- Adds the tags of a listing that begins at `offset` to a table. -/
def tagsFrom (table : TagTable) (offset : Word) : Listing → Except AssemblyError TagTable
  | [] => .ok table
  | .tag name :: rest =>
    if (table.lookup name).isSome then .error (.duplicateTag name)
    else tagsFrom (table ++ [(name, offset)]) offset rest
  | _ :: rest => tagsFrom table (offset + 1) rest

/-- The offset of every tag. A tag may be defined only once. -/
def tags (listing : Listing) : Except AssemblyError TagTable := tagsFrom [] 0 listing

/-- Replaces a tag by its offset. -/
def resolve (table : TagTable) : Instruction → Except AssemblyError Instruction
  | .addressed opcode (.tag name) =>
    match table.lookup name with
    | some offset => .ok (.addressed opcode (.offset offset))
    | none => .error (.undefinedTag name)
  | instruction => .ok instruction

/-- The words of a listing whose tags are known. -/
def encodeWith (table : TagTable) : Listing → Except AssemblyError (List Word)
  | [] => .ok []
  | .tag _ :: rest => encodeWith table rest
  | .data value :: rest => (encodeWith table rest).map (value :: ·)
  | .instruction i :: rest => do
    let word ← (← resolve table i).encode
    return word :: (← encodeWith table rest)

/-- The words of a listing, one for each record that is not a tag. -/
def assemble (listing : Listing) : Except AssemblyError (List Word) := do
  encodeWith (← listing.tags) listing

end WordLisp.Listing
