import WordLisp.Command.Session
import WordLisp.Proofs.Code.Legible
import WordLisp.Proofs.Image

/-!
# Two ways to run a program

A source file can be run at once. Or it is compiled, what is printed is kept as a listing and assembled,
and the image is executed. A listing that is printed has the symbols of the program as comments behind
its records, and those are legible, so that the listing is read again as it was compiled.

Main statement: both ways run the same words.
-/

namespace WordLisp

open Text

/-! ## Comments -/

theorem Line.readRecord?_comment (cs : List Char) : readRecord? (';' :: cs) = .ok none := by
  simp [readRecord?, trim]

theorem Listing.ofLines_comments {comments : List String} (h : ∀ s ∈ comments, s.toList.all isPlain)
    (number : Nat) :
    ofLines number (lines (String.join (comments.map fun s => ";" ++ s ++ "\n")).toList) = .ok [] := by
  induction comments generalizing number with
  | nil => rfl
  | cons s comments ih =>
    obtain ⟨hs, hcomments⟩ := List.forall_mem_cons.mp h
    have hplain : ∀ c ∈ ';' :: s.toList, c ≠ '\n' ∧ c ≠ '\r' := by
      refine List.forall_mem_cons.mpr ⟨by decide, fun c hc => ⟨?_, ?_⟩⟩ <;> rintro rfl
      · exact absurd (List.all_eq_true.mp hs _ hc) (by decide)
      · exact absurd (List.all_eq_true.mp hs _ hc) (by decide)
    have htext : (String.join ((s :: comments).map fun s => ";" ++ s ++ "\n")).toList =
        (';' :: s.toList) ++ '\n' :: (String.join (comments.map fun s => ";" ++ s ++ "\n")).toList := by simp
    rw [htext, lines_append fun hc => (hplain _ hc).1 rfl, dropReturn_eq fun hc => (hplain _ hc).2 rfl,
      ofLines, Line.readRecord?_comment]
    exact ih hcomments (number + 1)

theorem Word.all_addressText (w : Word) : (addressText w).toList.all isPlain := by
  unfold addressText
  rw [String.toList_append, Numeral.toList_hex, List.all_append, Bool.and_eq_true]
  refine ⟨by decide, List.all_eq_true.mpr fun c hc => ?_⟩
  have hline := isLineChar_of_isTagChar
    (isTagChar_of_isAlphanum (Numeral.isAlphanum_of_mem_toDigits _ hc))
  simp [isPlain, hline]

namespace SymbolPool

/-- The comments of a listing, without their marks. -/
def commentLines (pool : SymbolPool) : List String :=
  if pool.names.isEmpty then []
  else " symbols" :: pool.toList.map fun entry => "   @" ++ entry.2 ++ " = " ++ Word.addressText entry.1

theorem comments_eq (pool : SymbolPool) :
    pool.comments = String.join (pool.commentLines.map fun s => ";" ++ s ++ "\n") := by
  unfold comments commentLines
  split
  · rfl
  · rw [← String.toList_inj]
    simp [List.flatMap_map]

theorem name_mem_of_mem_toList {pool : SymbolPool} {entry : Word × String} (h : entry ∈ pool.toList) :
    entry.2 ∈ pool.names := by
  obtain ⟨i, hi, rfl⟩ := List.mem_mapIdx.mp h
  exact List.getElem_mem hi

theorem all_commentLines {pool : SymbolPool} (h : ∀ name ∈ pool.names, isName name) :
    ∀ s ∈ pool.commentLines, s.toList.all isPlain := by
  unfold commentLines
  split
  · exact List.forall_mem_nil _
  · refine List.forall_mem_cons.mpr ⟨by decide, List.forall_mem_map.mpr fun entry hentry => ?_⟩
    have hname := Target.legible_of_isName (h _ (name_mem_of_mem_toList hentry))
    simp only [String.toList_append, List.all_append, Bool.and_eq_true]
    exact ⟨⟨⟨by decide, hname.1.isWord.all⟩, by decide⟩, Word.all_addressText entry.1⟩

end SymbolPool

/-! ## The text of a listing -/

/-- The listing of a source text, without redundant loads if that is wanted. -/
def compileWith (optimize : Bool) (source : String) : Except SourceError Listing :=
  if optimize then compile source else compilePlain source

theorem compileWith_eq (optimize : Bool) (source : String) : compileWith optimize source =
    (compileWithSymbols source).map fun p => if optimize then p.1.dropReloads else p.1 := by
  unfold compileWith compile compilePlain
  cases compileWithSymbols source <;> cases optimize <;> rfl

theorem legible_of_compileWith {optimize : Bool} {source : String} {listing : Listing}
    (h : compileWith optimize source = .ok listing) : ∃ pool : SymbolPool,
      listingText optimize source = .ok (listing.text ++ pool.comments) ∧
      (∀ r ∈ listing, r.Legible) ∧ ∀ name ∈ pool.names, isName name := by
  rw [compileWith_eq] at h
  obtain ⟨⟨plain, pool⟩, hcompile, rfl⟩ := ok_of_map_eq_ok h
  obtain ⟨hlegible, hpool⟩ := legible_of_compileWithSymbols hcompile
  refine ⟨pool, ?_, fun r hr => hlegible r ?_, hpool⟩
  · unfold listingText
    rw [hcompile]
    rfl
  · cases optimize with
    | false => exact hr
    | true => exact (Listing.dropReloads_sublist plain).subset hr

theorem Listing.parse_text_comments {listing : Listing} {pool : SymbolPool}
    (hlegible : ∀ r ∈ listing, r.Legible) (hpool : ∀ name ∈ pool.names, isName name) :
    parse (listing.text ++ pool.comments) = .ok listing := by
  unfold parse
  rw [String.toList_append, ofLines_text hlegible, pool.comments_eq,
    ofLines_comments (SymbolPool.all_commentLines hpool)]
  exact congrArg Except.ok (List.append_nil listing)

/-! ## Commands -/

/-- The content of a file with a text. -/
def Bytes.ofText (text : String) : Bytes := text.toUTF8.data.toList

theorem Bytes.text?_ofText (text : String) : Bytes.text? (ofText text) = some text := by
  show String.fromUTF8? text.toUTF8 = some text
  exact dif_pos text.isValidUTF8

/-- The reply of a command that prints a text. -/
def Reply.printing (text : String) : Reply := { stdout := text }

/-- The reply of a command that writes a file. -/
def Reply.writing (path : String) (content : Bytes) : Reply := { written := some (path, content) }

namespace Command

theorem textOf_eq {path : String} {content : Bytes} {text : String} (h : content.text? = some text) :
    textOf path content = .ok text := by
  unfold textOf
  rw [h]

theorem plan_run {path : String} {content : Bytes} {source : String} {words : List Word}
    (hcontent : content.text? = some source) (h : build source = .ok words) (options : RunOptions)
    (input : Bytes) : (run path options).plan content input = options.plan words input := by
  simp only [plan, textOf_eq hcontent, bind, Except.bind, h, Except.mapError]

theorem plan_compile {path : String} {content : Bytes} {source text : String} {optimize : Bool}
    (hcontent : content.text? = some source) (h : listingText optimize source = .ok text)
    (input : Bytes) : (compile path optimize).plan content input = .ok (.print text) := by
  simp only [plan, textOf_eq hcontent, bind, Except.bind, h, Except.mapError]
  rfl

theorem plan_assemble {path output : String} {content : Bytes} {text : String} {listing : Listing}
    {words : List Word} (hcontent : content.text? = some text) (hparse : Listing.parse text = .ok listing)
    (h : listing.assemble = .ok words) (input : Bytes) :
    (assemble path output).plan content input = .ok (.write output (Image.toBytes words)) := by
  simp only [plan, textOf_eq hcontent, bind, Except.bind, hparse, h, Except.mapError]
  rfl

theorem plan_exec (path : String) (words : List Word) (options : RunOptions) (input : Bytes) :
    (exec path options).plan (Image.toBytes words) input = options.plan words input := by
  simp only [plan, bind, Except.bind, Image.ofBytes_toBytes, Except.mapError]

theorem reply?_print {command : Command} {path text : String} {files : Files} {content input : Bytes}
    (hfile : command.file? = some path) (hread : files.read path = .ok content)
    (h : command.plan content input = .ok (.print text)) (slices : Nat) :
    command.reply? slices files input = some (.printing text) := by
  simp only [reply?, hfile, hread, Except.mapError, Except.bind, h]
  rfl

theorem reply?_write {command : Command} {path output : String} {files : Files}
    {content written input : Bytes} (hfile : command.file? = some path)
    (hread : files.read path = .ok content) (hwrite : files.refuse? output = none)
    (h : command.plan content input = .ok (.write output written)) (slices : Nat) :
    command.reply? slices files input = some (.writing output written) := by
  simp only [reply?, hfile, hread, Except.mapError, Except.bind, h, hwrite]
  rfl

/-- Commands that run the same words give the same reply. -/
theorem reply?_congr {a b : Command} {p q : String} {files files' : Files}
    {content content' input : Bytes} {options : RunOptions} {words : List Word}
    (hp : a.file? = some p) (hread : files.read p = .ok content)
    (ha : a.plan content input = options.plan words input)
    (hq : b.file? = some q) (hread' : files'.read q = .ok content')
    (hb : b.plan content' input = options.plan words input) (slices : Nat) :
    a.reply? slices files input = b.reply? slices files' input := by
  simp only [reply?, hp, hq, hread, hread', Except.mapError, Except.bind, ha, hb, RunOptions.plan]
  cases options.machine words input <;> rfl

end Command

/-! ## Routes -/

/-- What comes of the commands with a source text: they print the listing `text`, write the bytes of the
words `image`, and run these words. -/
structure Route (optimize : Bool) (source text : String) (image : List Word) : Prop where
  compile : ∀ (files : Files) (path : String) (content input : Bytes) (slices : Nat),
    files.read path = .ok content → content.text? = some source →
    (Command.compile path optimize).reply? slices files input = some (.printing text)
  assemble : ∀ (files : Files) (path output : String) (input : Bytes) (slices : Nat),
    files.read path = .ok (.ofText text) → files.refuse? output = none →
    (Command.assemble path output).reply? slices files input =
      some (.writing output (Image.toBytes image))
  bytes : Image.ofBytes (Image.toBytes image) = .ok image
  exec : ∀ (path : String) (input : Bytes) (options : RunOptions),
    (Command.exec path options).plan (Image.toBytes image) input = options.plan image input

theorem exists_route {optimize : Bool} {source : String} {listing : Listing}
    (h : compileWith optimize source = .ok listing) : ∃ text, listingText optimize source = .ok text ∧
      Listing.parse text = .ok listing ∧
      ∀ image, listing.assemble = .ok image → Route optimize source text image := by
  obtain ⟨pool, htext, hlegible, hpool⟩ := legible_of_compileWith h
  have hparse := Listing.parse_text_comments hlegible hpool
  refine ⟨_, htext, hparse, fun image himage => ⟨?_, ?_, Image.ofBytes_toBytes image, ?_⟩⟩
  · intro files path content input slices hread hcontent
    exact Command.reply?_print rfl hread (Command.plan_compile hcontent htext input) slices
  · intro files path output input slices hread hwrite
    exact Command.reply?_write rfl hread hwrite
      (Command.plan_assemble (Bytes.text?_ofText _) hparse himage input) slices
  · intro path input options
    exact Command.plan_exec path image options input

/-- A source text that builds gives the same words on both routes. The listing that `compile` prints is
read as it was compiled, with and without its redundant loads, and it is assembled and written. What
`exec` replies when it finds these bytes is what `run` replies to the source text. -/
theorem routes_agree {source : String} {words : List Word} (h : build source = .ok words) :
    (∃ text listing, listingText true source = .ok text ∧ compile source = .ok listing ∧
      Listing.parse text = .ok listing ∧ listing.assemble = .ok words ∧ Route true source text words) ∧
    (∃ text plain, listingText false source = .ok text ∧ compilePlain source = .ok plain ∧
      Listing.parse text = .ok plain ∧
      ∀ image, plain.assemble = .ok image → Route false source text image) ∧
    ∀ (files files' : Files) (path path' : String) (content input : Bytes) (options : RunOptions)
      (slices : Nat), files.read path = .ok content → content.text? = some source →
      files'.read path' = .ok (Image.toBytes words) →
      (Command.exec path' options).reply? slices files' input =
        (Command.run path options).reply? slices files input := by
  obtain ⟨listing, hcompile, hassemble⟩ := compile_of_build h
  obtain ⟨plain, hplain, -⟩ := ok_of_bind_eq_ok hcompile
  refine ⟨?_, ?_, ?_⟩
  · obtain ⟨text, htext, hparse, hroute⟩ := exists_route
      (show compileWith true source = .ok listing from hcompile)
    exact ⟨text, listing, htext, hcompile, hparse, hassemble, hroute words hassemble⟩
  · obtain ⟨text, htext, hparse, hroute⟩ := exists_route
      (show compileWith false source = .ok plain from hplain)
    exact ⟨text, plain, htext, hplain, hparse, hroute⟩
  · intro files files' path path' content input options slices hread hcontent hread'
    exact Command.reply?_congr rfl hread' (Command.plan_exec path' words options input) rfl hread
      (Command.plan_run hcontent h options input) slices

theorem routes_agree_total : ∃ words text listing, build totalSource = .ok words ∧
    listingText true totalSource = .ok text ∧ compile totalSource = .ok listing ∧
    Listing.parse text = .ok listing ∧ Route true totalSource text words := by
  have hparse : Item.parse totalSource = .ok totalItems := by cbv
  obtain ⟨plain, symbols, hplain, hcheck⟩ := compiles_of_check hparse
    (fun listing _ => listing.dropReloads.assemblesTo fun _ => true) (by decide +kernel)
  obtain ⟨words, hassemble, -⟩ := Listing.exists_of_assemblesTo hcheck
  have hbuild := build_of_assemble (compilePlain_of_compileWithSymbols hplain) hassemble
  obtain ⟨text, listing, htext, hlisting, hread, -, hroute⟩ := (routes_agree hbuild).1
  exact ⟨words, text, listing, hbuild, htext, hlisting, hread, hroute⟩

end WordLisp
