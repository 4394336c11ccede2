import Protoscribe.Proofs.Comments
import Protoscribe.Proofs.Compile.Outcome

/-!
# `Protoscribe.Proofs.StringLiterals`: printed string literals read back

Names of imports, paths, kinds and bodies are free texts, and each of them is printed as a string
literal. `readFrom` reads the literals of a text as a compiler of the source does: a literal ends at
the first quotation mark that has no backslash in front of it, and it may not go on to the next
line.

What `escape` puts in front of quotation marks and backslashes is taken off again by the reader, in
any run of them (`readFrom_escape`). But a line feed is printed as it is. So the literals of a
statement are read back exactly when no value in it holds a line feed (`literals_read_back_iff`).
A statement is taken in pieces for this: what is printed as it is, and the values in quotation
marks.
-/

set_option autoImplicit false

namespace Protoscribe

namespace Printer

/-! ### Reading literals -/

/-- The character that a letter behind a backslash stands for. Escapes by number are not read, since
none is printed. -/
def escaped? : Char → Option Char
  | 'a' => some '\x07'
  | 'b' => some '\x08'
  | 'f' => some '\x0c'
  | 'n' => some '\n'
  | 'r' => some '\r'
  | 't' => some '\t'
  | 'v' => some '\x0b'
  | '\\' => some '\\'
  | '\'' => some '\''
  | '"' => some '"'
  | '?' => some '?'
  | _ => none

/-- The values of the literals in a text. Inside a literal, the first argument is what has been read
of it, last character first. There is no value when a literal does not end on its line or has an
escape that is not known. -/
def readFrom : Option (List Char) → List Char → Option (List (List Char))
  | none, [] => some []
  | none, c :: rest => if c = '"' then readFrom (some []) rest else readFrom none rest
  | some _, [] => none
  | some _, ['\\'] => none
  | some content, '\\' :: c :: rest =>
    match escaped? c with
    | some value => readFrom (some (value :: content)) rest
    | none => none
  | some content, c :: rest =>
    if c = '"' then (readFrom none rest).map (content.reverse :: ·)
    else if c = '\n' then none
    else readFrom (some (c :: content)) rest

/-- The values of the string literals in a text. -/
def literals? (text : String) : Option (List String) :=
  (readFrom none text.toList).map (·.map String.ofList)

/-- Characters outside of literals are passed over, if none is a quotation mark. -/
theorem readFrom_skip {plain : List Char} (h : '"' ∉ plain) (rest : List Char) :
    readFrom none (plain ++ rest) = readFrom none rest := by
  induction plain with
  | nil => rfl
  | cons c plain ih =>
    obtain ⟨hc, hplain⟩ := not_or.mp (List.mem_cons.not.mp h)
    rw [List.cons_append, readFrom, if_neg (Ne.symm hc), ih hplain]

/-- What is escaped reads back as what it was, and the literal goes on to the quotation mark behind
it. A line feed breaks it off. -/
theorem readFrom_escape (content text rest : List Char) :
    readFrom (some content) (escape text ++ '"' :: rest) =
      if '\n' ∈ text then none
      else (readFrom none rest).map ((content.reverse ++ text) :: ·) := by
  -- two characters are escaped, and a line feed is not
  induction text generalizing content with
  | nil => simp [escape, readFrom]
  | cons c text ih =>
    by_cases hbackslash : c = '\\'
    · subst hbackslash
      simp [escape, readFrom, escaped?, ih]
    · by_cases hquote : c = '"'
      · subst hquote
        simp [escape, readFrom, escaped?, ih]
      · by_cases hfeed : c = '\n'
        · subst hfeed
          simp [escape, readFrom]
        · have hplain : escape (c :: text) = c :: escape text := by
            simp [escape, hbackslash, hquote]
          rw [hplain, List.cons_append, readFrom, if_neg hquote, if_neg hfeed, ih]
          · simp [Ne.symm hfeed]
          · exact fun h => absurd h hbackslash
          · exact fun _ _ h => absurd h hbackslash

/-! ### Statements with literals -/

/-- A part of a statement: text that is printed as it is, or a literal. -/
inductive Piece where
  | plain (text : String)
  | quoted (value : String)
  deriving Repr, DecidableEq

namespace Piece

/-- The piece as it is printed. -/
def text : Piece → String
  | .plain text => text
  | .quoted value => literal value

/-- The value of a literal. -/
def value? : Piece → Option String
  | .plain _ => none
  | .quoted value => some value

end Piece

/-- A statement in its pieces, with its depth in the file. -/
structure Wording where
  depth : Nat
  pieces : List Piece
  deriving Repr, DecidableEq

namespace Wording

/-- The statement as it is printed. -/
def text (wording : Wording) : String :=
  String.join (wording.pieces.map Piece.text)

/-- The line of the statement. -/
def line (wording : Wording) : Line :=
  .code wording.depth wording.text

/-- The values of the literals in the statement. -/
def values (wording : Wording) : List String :=
  wording.pieces.filterMap Piece.value?

end Wording

/-- The statement of an import. -/
def importWording (name : String) : Wording :=
  ⟨0, [.plain "import ", .quoted name, .plain ";"]⟩

/-- The statement of a pattern. -/
def patternWording (depth : Nat) : HttpPattern → Wording
  | .custom kind path =>
    ⟨depth, [.plain "custom: \x7b kind: ", .quoted kind, .plain " path: ", .quoted path,
      .plain " \x7d"]⟩
  | other => ⟨depth, [.plain (other.verb ++ ": "), .quoted other.path]⟩

/-- The statements of a rule. -/
def ruleWordings (depth : Nat) (rule : HttpRule) : List Wording :=
  rule.pattern.toList.map (patternWording depth) ++
    if rule.body.isEmpty then [] else [⟨depth, [.plain "body: ", .quoted rule.body]⟩]

/-- The statements of a file in which names of imports, paths, kinds and bodies stand. The rules of
the methods are three levels down. -/
def wordings (descriptor : FileDescriptor) : List Wording :=
  descriptor.dependencies.map importWording ++
    descriptor.services.flatMap fun service =>
      service.methods.flatMap fun method => method.http.toList.flatMap (ruleWordings 3)

/-- A wording without pieces has no text. -/
@[simp]
theorem Wording.text_nil (depth : Nat) : (⟨depth, []⟩ : Wording).text = "" :=
  rfl

/-- The text of a wording, piece by piece. -/
@[simp]
theorem Wording.text_cons (depth : Nat) (piece : Piece) (rest : List Piece) :
    (⟨depth, piece :: rest⟩ : Wording).text = piece.text ++ (⟨depth, rest⟩ : Wording).text := by
  rw [Wording.text, List.map_cons, String.join_cons]
  rfl

/-- The wording of an import is the printed one. -/
theorem importWording_text (name : String) :
    (importWording name).text = "import " ++ literal name ++ ";" := by
  simp only [importWording, Wording.text_cons, Wording.text_nil, Piece.text, String.append_empty,
    String.append_assoc]

/-- The wording of a pattern is the printed one. -/
theorem patternWording_text (depth : Nat) (item : HttpPattern) :
    (patternWording depth item).text = pattern item := by
  cases item with
  | custom kind path =>
    show Wording.text ⟨depth, [.plain "custom: \x7b kind: ", .quoted kind, .plain " path: ",
      .quoted path, .plain " \x7d"]⟩ =
        "custom: \x7b kind: " ++ literal kind ++ " path: " ++ literal path ++ " \x7d"
    simp only [Wording.text_cons, Wording.text_nil, Piece.text, String.append_assoc,
      String.append_empty]
  | get path | put path | post path | delete path | patch path =>
    show Wording.text ⟨depth, [.plain (HttpPattern.verb _ ++ ": "), .quoted path]⟩ =
      HttpPattern.verb _ ++ ": " ++ literal path
    simp only [Wording.text_cons, Wording.text_nil, Piece.text, String.append_assoc,
      String.append_empty]

/-- The wording of a pattern stands where the pattern does. -/
theorem patternWording_depth (depth : Nat) (item : HttpPattern) :
    (patternWording depth item).depth = depth := by
  cases item <;> rfl

/-- The lines of a rule are its statements, in braces. -/
theorem rule_eq (depth : Nat) (item : HttpRule) :
    rule depth item = [.code depth "option (google.api.http) = \x7b"] ++
      (ruleWordings (depth + 1) item).map Wording.line ++ [.code depth "\x7d;"] := by
  have hpattern : (item.pattern.toList.map (patternWording (depth + 1))).map Wording.line =
      item.pattern.toList.map fun shape => .code (depth + 1) (pattern shape) := by
    rw [List.map_map]
    refine List.map_congr_left fun shape _ => ?_
    rw [Function.comp_apply, Wording.line, patternWording_depth, patternWording_text]
  have hbody : ((if item.body.isEmpty then []
        else [⟨depth + 1, [.plain "body: ", .quoted item.body]⟩]).map Wording.line) =
      if item.body.isEmpty then [] else [.code (depth + 1) ("body: " ++ literal item.body)] := by
    split
    · rfl
    · rw [List.map_singleton, Wording.line]
      simp only [Wording.text_cons, Wording.text_nil, Piece.text, String.append_empty]
  rw [ruleWordings, List.map_append, hpattern, hbody, rule]
  simp only [List.append_assoc]

/-- The wordings of a rule are lines of the printed method. -/
theorem line_mem_method {around : Surroundings} {depth : Nat} {path : List Int32}
    {item : MethodDescriptor} {wording : Wording}
    (h : wording ∈ item.http.toList.flatMap (ruleWordings (depth + 2))) :
    wording.line ∈ method around depth path item := by
  obtain ⟨shape, hshape, hwording⟩ := List.mem_flatMap.mp h
  have hrule : wording.line ∈ item.http.toList.flatMap (rule (depth + 1)) := by
    refine List.mem_flatMap.mpr ⟨shape, hshape, ?_⟩
    rw [rule_eq]
    exact List.mem_append_left _ (List.mem_append_right _ (List.mem_map_of_mem hwording))
  unfold method
  have hoptions : wording.line ∈
      (if item.isDeprecated then [Line.code (depth + 1) "option deprecated = true;"] else []) ++
        item.http.toList.flatMap (rule (depth + 1)) := List.mem_append_right _ hrule
  refine List.mem_append_right _ ?_
  rw [if_neg (by simp [List.ne_nil_of_mem hoptions])]
  exact List.mem_append_left _ (List.mem_append_right _ hoptions)

/-- Each statement is a line of the file. -/
theorem line_mem_file {descriptor : FileDescriptor} {wording : Wording}
    (h : wording ∈ wordings descriptor) : wording.line ∈ file descriptor := by
  unfold file
  rcases List.mem_append.mp h with h | h
  · obtain ⟨name, hname, rfl⟩ := List.mem_map.mp h
    have hline : (importWording name).line = .code 0 ("import " ++ literal name ++ ";") := by
      rw [Wording.line, importWording_text]
      rfl
    refine List.mem_append_left _ (List.mem_append_right _ ?_)
    rw [if_neg (by simp [List.ne_nil_of_mem hname]), hline]
    exact List.mem_cons_of_mem _ (List.mem_map_of_mem hname)
  · obtain ⟨item, hitem, h⟩ := List.mem_flatMap.mp h
    obtain ⟨shape, hshape, h⟩ := List.mem_flatMap.mp h
    obtain ⟨index, hindex⟩ := List.mem_iff_getElem?.mp hitem
    obtain ⟨position, hposition⟩ := List.mem_iff_getElem?.mp hshape
    -- the part of the service, among the parts that blank lines stand in front of
    refine List.mem_append_right _ (List.mem_flatMap.mpr ⟨_, List.mem_append_right _
      (List.mem_map.mpr ⟨(index, item), mem_indexed.mpr hindex, rfl⟩), List.mem_cons_of_mem _ ?_⟩)
    refine List.mem_append_left _ (List.mem_append_right _ (List.mem_flatMap.mpr
      ⟨(position, shape), mem_indexed.mpr hposition, line_mem_method h⟩))

/-! ### The literals of a statement -/

/-- Nothing that is printed as it is begins a literal or a line. -/
def Wording.Marked (wording : Wording) : Prop :=
  ∀ text, .plain text ∈ wording.pieces → '"' ∉ text.toList ∧ '\n' ∉ text.toList

/-- Only the quoted pieces of a pattern have quotation marks. -/
theorem marked_patternWording (depth : Nat) (item : HttpPattern) :
    (patternWording depth item).Marked := by
  cases item <;> simp [patternWording, Wording.Marked, HttpPattern.verb]

/-- So it is with all wordings of a file. -/
theorem marked_of_mem {descriptor : FileDescriptor} {wording : Wording}
    (h : wording ∈ wordings descriptor) : wording.Marked := by
  rcases List.mem_append.mp h with h | h
  · obtain ⟨name, -, rfl⟩ := List.mem_map.mp h
    simp [importWording, Wording.Marked]
  · obtain ⟨item, -, h⟩ := List.mem_flatMap.mp h
    obtain ⟨shape, -, h⟩ := List.mem_flatMap.mp h
    obtain ⟨rule, -, h⟩ := List.mem_flatMap.mp h
    rcases List.mem_append.mp h with h | h
    · obtain ⟨item, -, rfl⟩ := List.mem_map.mp h
      exact marked_patternWording 3 item
    · split at h
      · cases h
      · rw [List.mem_singleton.mp h]
        simp [Wording.Marked]

/-- A text without quotation marks has no literals. -/
theorem literals?_plain {text : String} (h : '"' ∉ text.toList) (rest : String) :
    literals? (text ++ rest) = literals? rest := by
  rw [literals?, literals?, String.toList_append, readFrom_skip h]

/-- A literal is read back unless there is a line feed in it. -/
theorem literals?_literal (value rest : String) :
    literals? (literal value ++ rest) =
      if '\n' ∈ value.toList then none else (literals? rest).map (value :: ·) := by
  have htext : (literal value ++ rest).toList =
      '"' :: (escape value.toList ++ '"' :: rest.toList) := by
    simp [literal]
  rw [literals?, htext, readFrom, if_pos rfl, readFrom_escape]
  split
  · rfl
  · rw [Option.map_map, literals?, Option.map_map]
    simp [Function.comp_def]

/-- The values of a statement are read back, unless one of them holds a line feed. -/
theorem Wording.Marked.literals?_text {depth : Nat} {pieces : List Piece}
    (h : Wording.Marked ⟨depth, pieces⟩) :
    literals? (Wording.text ⟨depth, pieces⟩) =
      if ∀ value ∈ Wording.values ⟨depth, pieces⟩, '\n' ∉ value.toList
      then some (Wording.values ⟨depth, pieces⟩) else none := by
  -- piece by piece; a line feed ends the line inside a literal
  induction pieces with
  | nil => rfl
  | cons piece rest ih =>
    have hrest := ih fun text htext => h text (List.mem_cons_of_mem _ htext)
    rw [Wording.text_cons]
    cases piece with
    | plain text =>
      rw [Piece.text, literals?_plain (h text List.mem_cons_self).1, hrest]
      rfl
    | quoted value =>
      have hvalues : Wording.values ⟨depth, .quoted value :: rest⟩ =
          value :: Wording.values ⟨depth, rest⟩ := rfl
      rw [Piece.text, literals?_literal, hrest, hvalues]
      simp only [List.forall_mem_cons]
      by_cases hvalue : '\n' ∈ value.toList
      · rw [if_pos hvalue, if_neg fun hall => hall.1 hvalue]
      · rw [if_neg hvalue]
        by_cases hothers : ∀ value ∈ Wording.values ⟨depth, rest⟩, '\n' ∉ value.toList
        · rw [if_pos hothers, if_pos ⟨hvalue, hothers⟩]
          rfl
        · rw [if_neg hothers, if_neg fun hall => hothers hall.2]
          rfl

/-- A literal has the line feeds of its text. -/
theorem newline_mem_literal (value : String) :
    '\n' ∈ (literal value).toList ↔ '\n' ∈ value.toList := by
  have hescape (text : List Char) : '\n' ∈ escape text ↔ '\n' ∈ text := by
    induction text with
    | nil => rfl
    | cons c rest ih =>
      rw [escape]
      split
      · simp [ih]
      · rw [List.mem_cons, List.mem_cons, ih]
  simp [literal, hescape]

/-- A statement is on one line exactly when no value in it holds a line feed. -/
theorem Wording.Marked.newline_mem_text {depth : Nat} {pieces : List Piece}
    (h : Wording.Marked ⟨depth, pieces⟩) :
    '\n' ∉ (Wording.text ⟨depth, pieces⟩).toList ↔
      ∀ value ∈ Wording.values ⟨depth, pieces⟩, '\n' ∉ value.toList := by
  induction pieces with
  | nil => simp [Wording.values]
  | cons piece rest ih =>
    have hrest := ih fun text htext => h text (List.mem_cons_of_mem _ htext)
    rw [Wording.text_cons, String.toList_append, List.mem_append, not_or, hrest]
    cases piece with
    | plain text =>
      have htext : '\n' ∉ text.toList := (h text List.mem_cons_self).2
      show '\n' ∉ text.toList ∧ _ ↔ _
      rw [and_iff_right htext]
      rfl
    | quoted value =>
      have hvalues : Wording.values ⟨depth, .quoted value :: rest⟩ =
          value :: Wording.values ⟨depth, rest⟩ := rfl
      rw [Piece.text, newline_mem_literal, hvalues, List.forall_mem_cons]

/-- The name of each import, the path and the kind of each pattern and each body is printed in one
statement of the file. Read back, the literals of the statement have these values, in order, and
nothing else is quoted; and the statement is on one line. This holds exactly when none of the values
has a line feed in it, which is printed as it is. -/
theorem literals_read_back_iff {descriptor : FileDescriptor} {wording : Wording}
    (h : wording ∈ wordings descriptor) :
    wording.line ∈ file descriptor ∧
      ((literals? wording.text = some wording.values ∧ '\n' ∉ wording.text.toList) ↔
        ∀ value ∈ wording.values, '\n' ∉ value.toList) := by
  have hmarked := marked_of_mem h
  refine ⟨line_mem_file h, ?_⟩
  rw [hmarked.newline_mem_text, hmarked.literals?_text]
  simp

/-- A file with one method, on a path. -/
def served (path : String) : FileDescriptor :=
  let rule : HttpRule := { pattern := some (.get path) }
  { services := [{ methods := [{ options := some { http := some rule } }] }] }

/-- The path of the method is worded in the file. -/
theorem patternWording_mem_served (path : String) :
    patternWording 3 (.get path) ∈ wordings (served path) :=
  List.mem_singleton_self _

/-- A path with a backslash in front of a quotation mark, as it is printed and as it is read. -/
theorem literals_read_back_iff_quoted :
    let wording := patternWording 3 (.get "/a\\\"")
    wording ∈ wordings (served "/a\\\"") ∧ wording.line ∈ file (served "/a\\\"") ∧
      wording.text = "get: \"/a\\\\\\\"\"" ∧ literals? wording.text = some ["/a\\\""] := by
  have hmem := patternWording_mem_served "/a\\\""
  have hback := literals_read_back_iff hmem
  exact ⟨hmem, hback.1, by decide +kernel, (hback.2.mpr (by decide +kernel)).1⟩

/-- One operation, under a path that goes on behind a line feed. -/
def splitPath : OpenApi.Document :=
  { (default : OpenApi.Document) with paths := .ofList [("/a\nb", { get := some {} })] }

/-- The path is printed on two lines, and its literal does not end on the first one. -/
theorem splitPath_does_not_read_back :
    ∃ out, compile splitPath { useAnnotation := true } = .ok out ∧
      patternWording 3 (.get "/a\nb") ∈ wordings out.file ∧
      (patternWording 3 (.get "/a\nb")).line ∈ file out.file ∧
      (patternWording 3 (.get "/a\nb")).values = ["/a\nb"] ∧
      literals? (patternWording 3 (.get "/a\nb")).text = none ∧
      '\n' ∈ (patternWording 3 (.get "/a\nb")).text.toList := by
  have hcompiles : Compile.compilesTo splitPath { useAnnotation := true } (fun s =>
      (wordings s.file.build).contains (patternWording 3 (.get "/a\nb"))) = true := by
    decide +kernel
  obtain ⟨out, s, hout, hfile, -, hcheck⟩ := Compile.exists_of_compilesTo hcompiles
  have hmem : patternWording 3 (.get "/a\nb") ∈ wordings out.file := by simpa [hfile] using hcheck
  exact ⟨out, hout, hmem, line_mem_file hmem, rfl, by decide +kernel, by decide +kernel⟩

end Printer

end Protoscribe
