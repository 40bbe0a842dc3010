import WordLisp.Generator
import WordLisp.Listing.Assemble
import WordLisp.Listing.Reload
import WordLisp.Source.Parser

/-!
# From source text to words

The stages of the toolchain one behind the other.
-/

namespace WordLisp

/-- Why no program could be built from a source text. -/
inductive BuildError where
  | source (error : SourceError)
  | assembly (error : AssemblyError)
  deriving DecidableEq, Repr

def BuildError.message : BuildError → String
  | source error => error.message
  | assembly error => error.message

/-- The result of an action on a fresh generator, with the generator that it leaves. -/
def Generator.start (action : Action α) : Except SourceError (α × Generator) :=
  match action {} with
  | .ok a g => .ok (a, g)
  | .error error _ => .error error

/-- The listing of a program text, with all loads that the generator has written, and the symbols
that the text uses. -/
def compileWithSymbols (source : String) : Except SourceError (Listing × SymbolPool) := do
  let (listing, g) ← Generator.start (Generator.program (← Item.parse source))
  return (listing, g.symbols)

/-- The listing of a program text, with all loads that the generator has written. -/
def compilePlain (source : String) : Except SourceError Listing := do
  return (← compileWithSymbols source).1

/-- The listing of a program text, without redundant loads. -/
def compile (source : String) : Except SourceError Listing := do
  return (← compilePlain source).dropReloads

/-- The words of a program text, ready to be loaded. -/
def build (source : String) : Except BuildError (List Word) :=
  match compile source with
  | .error error => .error (.source error)
  | .ok listing =>
    match listing.assemble with
    | .error error => .error (.assembly error)
    | .ok words => .ok words

/-- The symbols and their numbers as comments of a listing. -/
def SymbolPool.comments (pool : SymbolPool) : String :=
  if pool.names.isEmpty then ""
  else "; symbols\n" ++ String.join (pool.toList.map fun (id, name) =>
    ";   @" ++ name ++ " = " ++ Word.addressText id ++ "\n")

/-- The text of the listing of a program text, which itself can be assembled. -/
def listingText (optimize : Bool) (source : String) : Except SourceError String := do
  let (listing, symbols) ← compileWithSymbols source
  let listing := if optimize then listing.dropReloads else listing
  return listing.text ++ symbols.comments

end WordLisp
