import Protoscribe.Proofs.PrintedFields

/-!
# `Protoscribe.Proofs.CommentLines`: comments stay in lines of their own

The comments of a file are free texts with line ends of any kind in them. They are cut into lines
once when they are stored and once more when they are printed. Only the second cut counts here: no
piece of it holds a line feed (`Text.newline_not_mem_lines`), so a comment line of a file is one
line of its text.

A file is therefore printed as without its source information, but for lines in between which are
comments (`commented_file`). What is left of the text without its comment lines is the same
(`withoutComments_source`).
-/

set_option autoImplicit false

namespace Protoscribe

/-! ### Lines of a text -/

/-- No line of a text holds a line feed. -/
theorem Text.newline_not_mem_lines {text line : List Char} (h : line ∈ Text.lines text) :
    '\n' ∉ line := by
  fun_induction Text.lines text generalizing line with
  | case1 => cases h
  | case2 rest ih =>
    rcases List.mem_cons.mp h with rfl | h
    · exact List.not_mem_nil
    · exact ih h
  | case3 c rest hc hrest ih =>
    cases List.mem_singleton.mp h
    simpa using fun heq => hc heq.symm
  | case4 c rest hc first others hrest hend ih =>
    rcases List.mem_cons.mp h with rfl | h
    · exact List.not_mem_nil
    · exact ih (hrest ▸ List.mem_cons_of_mem _ h)
  | case5 c rest hc first others hrest hend ih =>
    rcases List.mem_cons.mp h with rfl | h
    · have hfirst := ih (hrest ▸ List.mem_cons_self ..)
      simpa [hfirst] using fun heq => hc heq.symm
    · exact ih (hrest ▸ List.mem_cons_of_mem _ h)

namespace Printer

/-- Is a line of a text a comment: do two slashes come first behind its spaces? -/
def isComment (line : List Char) : Bool :=
  ['/', '/'].isPrefixOf (line.dropWhile (· = ' '))

/-- The lines of a text that are no comments. -/
def codeLines (text : List Char) : List (List Char) :=
  (text.splitOn '\n').filter fun line => !isComment line

/-- A text without the lines that are comments. -/
def withoutComments (text : String) : String :=
  String.ofList (['\n'].intercalate (codeLines text.toList))

/-- A line break separates lines. -/
theorem codeLines_append (text rest : List Char) :
    codeLines (text ++ '\n' :: rest) = codeLines text ++ codeLines rest := by
  have hsplit := List.splitOnP_append_cons (p := (· == '\n')) text rest (beq_self_eq_true '\n')
  simp only [codeLines, List.splitOn, hsplit, List.filter_append]

/-- A comment on one line leaves nothing. -/
theorem codeLines_comment {line : List Char} (h : '\n' ∉ line) (hcomment : isComment line = true) :
    codeLines line = [] := by
  have hsplit : line.splitOn '\n' = [line] :=
    List.splitOnP_eq_singleton fun c hc => by
      simpa using fun heq : c = '\n' => h (heq ▸ hc)
  simp [codeLines, hsplit, hcomment]

/-! ### Printed lines -/

/-- The characters of a line in front of its line feed. -/
def Line.characters : Line → List Char
  | .blank => []
  | .comment depth text => (indentation depth).toList ++ '/' :: '/' :: text.toList
  | .code depth text => (indentation depth).toList ++ text.toList

/-- A printed line ends in a line break. -/
theorem toList_render_cons (line : Line) (rest : List Line) :
    (render (line :: rest)).toList = line.characters ++ '\n' :: (render rest).toList := by
  rw [render, List.map_cons, String.join_cons, String.toList_append, ← render]
  cases line <;> simp [Line.render, Line.characters]

/-- A comment line is a comment in the text, as long as it is one line. -/
theorem codeLines_characters {depth : Nat} {text : String} (h : '\n' ∉ text.toList) :
    codeLines (Line.comment depth text).characters = [] := by
  have hblank : ∀ c ∈ (Line.indentation depth).toList, c = ' ' := by
    simp +contextual [Line.indentation, List.mem_replicate]
  refine codeLines_comment ?_ ?_
  · simpa [Line.characters, h] using fun hmem => by simpa using hblank _ hmem
  · have hdrop : (Line.comment depth text).characters.dropWhile (· = ' ') =
        '/' :: '/' :: text.toList := by
      rw [Line.characters, List.dropWhile_append_of_pos (by simpa using hblank)]
      rfl
    rw [isComment, hdrop]
    rfl

/-- Some lines are others with comments between them, each of them on one line. -/
inductive Commented : List Line → List Line → Prop
  | nil : Commented [] []
  | comment {depth : Nat} {text : String} {lines plain : List Line} (htext : '\n' ∉ text.toList)
      (h : Commented lines plain) : Commented (.comment depth text :: lines) plain
  | same {line : Line} {lines plain : List Line} (h : Commented lines plain) :
      Commented (line :: lines) (line :: plain)

/-- Comments between lines leave nothing in the text. -/
theorem Commented.codeLines_eq {lines plain : List Line} (h : Commented lines plain) :
    codeLines (render lines).toList = codeLines (render plain).toList := by
  induction h with
  | nil => rfl
  | comment htext _ ih =>
    rw [toList_render_cons, codeLines_append, codeLines_characters htext, List.nil_append, ih]
  | same _ ih => rw [toList_render_cons, toList_render_cons, codeLines_append, codeLines_append, ih]

namespace Commented

variable {α : Type} {lines others plain plainOthers : List Line} {around : Surroundings}
  {depth : Nat} {path : List Int32}

/-- Lines are themselves without any comments more. -/
theorem refl (lines : List Line) : Commented lines lines := by
  induction lines with
  | nil => exact .nil
  | cons line rest ih => exact .same ih

/-- Comments may stand in either of two parts. -/
theorem append (h : Commented lines plain) (hothers : Commented others plainOthers) :
    Commented (lines ++ others) (plain ++ plainOthers) := by
  induction h with
  | nil => exact hothers
  | comment htext _ ih => exact .comment htext ih
  | same _ ih => exact .same ih

/-- Comments may stand in every part. -/
theorem flatMap {items : List α} {print printPlain : α → List Line}
    (h : ∀ item, Commented (print item) (printPlain item)) :
    Commented (items.flatMap print) (items.flatMap printPlain) := by
  induction items with
  | nil => exact .nil
  | cons item rest ih =>
    rw [List.flatMap_cons, List.flatMap_cons]
    exact (h item).append ih

/-- Comments may stand in parts with blank lines between them. -/
theorem separated {parts plainParts : List (List Line)}
    (h : List.Forall₂ Commented parts plainParts) :
    Commented (Printer.separated parts) (Printer.separated plainParts) := by
  induction h with
  | nil => exact .nil
  | cons hpart hrest ih =>
    cases hrest with
    | nil => exact hpart
    | cons _ _ => exact hpart.append (.same ih)

/-- Comments may stand in parts with blank lines in front of them. -/
theorem spaced {parts plainParts : List (List Line)} (h : List.Forall₂ Commented parts plainParts) :
    Commented (parts.flatMap fun part => .blank :: part)
      (plainParts.flatMap fun part => .blank :: part) := by
  induction h with
  | nil => exact .nil
  | cons hpart _ ih =>
    rw [List.flatMap_cons, List.flatMap_cons]
    exact (Commented.same hpart).append ih

/-- Parts are compared one by one. -/
theorem map (items : List α) {print printPlain : α → List Line}
    (h : ∀ item, Commented (print item) (printPlain item)) :
    List.Forall₂ Commented (items.map print) (items.map printPlain) := by
  rw [List.forall₂_map_left_iff, List.forall₂_map_right_iff]
  exact List.forall₂_same.mpr fun item _ => h item

/-! ### Elements -/

/-- The comment of an element is comment lines and nothing else. -/
theorem comments (around : Surroundings) (depth : Nat) (path : List Int32) :
    Commented (around.comments depth path) [] := by
  unfold Surroundings.comments
  split
  · exact .nil
  · next text _ =>
    have hlines : ∀ line ∈ Text.lines text.toList, '\n' ∉ line := fun line =>
      Text.newline_not_mem_lines
    generalize Text.lines text.toList = lines at hlines
    induction lines with
    | nil => exact .nil
    | cons line rest ih =>
      obtain ⟨hline, hrest⟩ := List.forall_mem_cons.mp hlines
      exact .comment (by simpa using hline) (ih hrest)

/-- A field is printed with its comment above it. -/
theorem field (item : FieldDescriptor) :
    Commented (field around depth path item) (field (bare around.package) depth path item) :=
  (comments around depth path).append (.refl _)

/-- A part of a message body is printed with the comments of its fields. -/
theorem member (oneofs : List OneofDescriptor) (part : Member) :
    Commented (member around depth path oneofs part)
      (member (bare around.package) depth path oneofs part) := by
  cases part with
  | field index item => exact field item
  | oneof group items =>
    rw [Printer.member, Printer.member]
    exact .append (.append (.refl _) (.flatMap fun item => field item.2)) (.refl _)

/-- An enum is printed with its comment above it. -/
theorem enum (around : Surroundings) (depth : Nat) (path : List Int32) (item : EnumDescriptor) :
    Commented (enum around depth path item) (enum (bare around.package) depth path item) := by
  rw [Printer.enum, Printer.enum]
  refine .append (.append (.append (comments around depth path) (.refl _))
    (.flatMap fun value => ?_)) (.refl _)
  exact .append (comments around (depth + 1) (child path 2 value.1)) (.refl _)

mutual

/-- A message is printed with the comments of everything in it. -/
theorem message (around : Surroundings) (depth : Nat) (path : List Int32) :
    ∀ item : MessageDescriptor,
      Commented (message around depth path item) (message (bare around.package) depth path item)
  | ⟨name, fields, nested, enums, oneofs⟩ => by
    have hbody : List.Forall₂ Commented
        (if fields.isEmpty then []
         else [(members fields).flatMap (Printer.member around (depth + 1) path oneofs)])
        (if fields.isEmpty then []
         else [(members fields).flatMap
          (Printer.member (bare around.package) (depth + 1) path oneofs)]) := by
      split
      · exact .nil
      · exact .cons (.flatMap fun part => member oneofs part) .nil
    have henums := map (indexed enums) fun item =>
      enum around (depth + 1) (child path 4 item.1) item.2
    have hparts := List.rel_append
      (List.rel_append henums (messages around (depth + 1) path 3 0 nested)) hbody
    rw [Printer.message, Printer.message]
    exact (((comments around depth path).append (.refl _)).append (separated hparts)).append
      (.refl _)

/-- Nested messages are printed with the comments of everything in them. -/
theorem messages (around : Surroundings) (depth : Nat) (path : List Int32) (tag : Int32)
    (start : Nat) : ∀ items : List MessageDescriptor,
      List.Forall₂ Commented (messages around depth path tag start items)
        (messages (bare around.package) depth path tag start items)
  | [] => .nil
  | item :: rest => by
    rw [Printer.messages, Printer.messages]
    exact .cons (message around depth (child path tag start) item)
      (messages around depth path tag (start + 1) rest)

end

/-- A method is printed with its comment above it. -/
theorem method (item : MethodDescriptor) :
    Commented (method around depth path item) (method (bare around.package) depth path item) := by
  rw [Printer.method, Printer.method]
  exact (comments around depth path).append (.refl _)

/-- A service is printed with the comments of its methods. -/
theorem service (around : Surroundings) (depth : Nat) (path : List Int32)
    (item : ServiceDescriptor) :
    Commented (service around depth path item) (service (bare around.package) depth path item) := by
  rw [Printer.service, Printer.service]
  exact .append (.append (.append (comments around depth path) (.refl _))
    (.flatMap fun item => method item.2)) (.refl _)

end Commented

/-- A file is printed as without its source information, but for comments. -/
theorem commented_file (descriptor : FileDescriptor) :
    Commented (file descriptor) (file { descriptor with locations := none }) := by
  have hpackage : Commented (descriptor.surroundings.comments 0 [2]) [] := .comments _ 0 [2]
  have henums := Commented.map (indexed descriptor.enums) fun item =>
    Commented.enum descriptor.surroundings 0 (child [] 5 item.1) item.2
  have hmessages := Commented.messages descriptor.surroundings 0 [] 4 0 descriptor.messages
  have hservices := Commented.map (indexed descriptor.services) fun item =>
    Commented.service descriptor.surroundings 0 (child [] 6 item.1) item.2
  have hdeclarations :=
    Commented.spaced (List.rel_append (List.rel_append henums hmessages) hservices)
  rw [file, file]
  refine .append (.append (.append (.refl _) ?_) (.refl _)) hdeclarations
  split
  · exact .nil
  · exact .same (.append hpackage (.refl _))

/-- Without its comment lines, the source of a file is the same whatever its source information
says. -/
theorem withoutComments_source (descriptor : FileDescriptor) (locations : Option (List Location)) :
    withoutComments (source { descriptor with locations }) =
      withoutComments (source { descriptor with locations := none }) := by
  have hcode := (commented_file { descriptor with locations }).codeLines_eq
  rw [withoutComments, source, hcode]
  rfl

end Printer

end Protoscribe
