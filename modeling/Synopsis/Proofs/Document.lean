import Synopsis.Document
import Synopsis.Proofs.Lines
import Synopsis.Proofs.Sources
import Synopsis.Proofs.Text.Decoding

/-!
# Reading a document back

The document of some files has no escapes, but it is read line by line: the lines around a file's
content are known, the path stands alone on its line, and the content ends at the first line that
closes it. So a document whose paths are single lines and whose contents have no closing line among
theirs is read back, block by block, and says which files it was made of.
-/

namespace Synopsis

open Layout

structure Entry where
  path : List Char
  content : List Char
deriving DecidableEq, Repr

namespace FileMap

def closingLine : List Char := "</file_map>".toList

def entry (f : FileMap) : Entry := ⟨f.path, terminated f.content⟩

/-- The path is a single line, and no line of the content looks like the one that closes it. -/
structure Plain (f : FileMap) : Prop where
  path : '\n' ∉ f.path
  content : ∀ l ∈ lines f.content, l.content ≠ closingLine

end FileMap

namespace Document

open FileMap

/-- How far a document has been read, with the entries read whole. -/
inductive Progress
  | start
  | between (entries : List Entry)
  | opened (entries : List Entry)
  | named (entries : List Entry) (path : List Char)
  | inside (entries : List Entry) (path content : List Char)
  | closed (entries : List Entry) (path content : List Char)
  | finished (entries : List Entry)
deriving DecidableEq, Repr

def pathOf? (line : List Char) : Option (List Char) :=
  let path := (line.drop 6).take (line.length - 13)
  if line = "<path>".toList ++ path ++ "</path>".toList then some path else none

namespace Progress

def next : Progress → List Char → Option Progress
  | start, line => if line = "<code_map>".toList then some (between []) else none
  | between es, line =>
    if line = "<file>".toList then some (opened es)
    else if line = "</code_map>".toList then some (finished es)
    else none
  | opened es, line => (pathOf? line).map (named es)
  | named es path, line => if line = "<file_map>".toList then some (inside es path []) else none
  | inside es path content, line =>
    if line = closingLine then some (closed es path content)
    else some (inside es path (content ++ line ++ ['\n']))
  | closed es path content, line =>
    if line = "</file>".toList then some (between (es ++ [⟨path, content⟩])) else none
  | finished _, _ => none

def entries? : Progress → Option (List Entry)
  | finished es => some es
  | _ => none

def feed (s : Progress) (text : List Char) : Option Progress :=
  (lines text).foldlM (fun s l => if l.newline then s.next l.content else none) s

theorem feed_line (s : Progress) {line : List Char} (h : '\n' ∉ line) (rest : List Char) :
    s.feed (line ++ '\n' :: rest) = (s.next line).bind (·.feed rest) := by
  rw [feed, lines_append_newline h, List.foldlM_cons]
  rfl

end Progress

def decode? (text : List Char) : Option (List Entry) :=
  (Progress.start.feed text).bind Progress.entries?

open Progress

section Terminated

variable {text : List Char}

theorem terminated_of_last (h : text.getLast? = some '\n') : terminated text = text := by
  simp [terminated, h]

theorem terminated_of_not_last (h : text.getLast? ≠ some '\n') :
    terminated text = text ++ ['\n'] := by
  simp [terminated, h]

theorem lines_append_singleton {l : Line} (h : l ∈ lines (text ++ ['\n'])) :
    l.content = [] ∨ ∃ m ∈ lines text, m.content = l.content := by
  induction text using lines_induction with
  | nil =>
    obtain rfl : l = ⟨[], true⟩ := by simpa [lines] using h
    exact .inl rfl
  | last content hnot hne =>
    rw [lines_append_newline hnot] at h
    obtain rfl : l = ⟨content, true⟩ := by simpa [lines] using h
    exact .inr ⟨⟨content, false⟩, by simp [lines_of_not_mem hnot hne], rfl⟩
  | line content rest hnot ih =>
    rw [List.append_assoc, List.cons_append, lines_append_newline hnot, List.mem_cons] at h
    rw [lines_append_newline hnot]
    rcases h with rfl | h
    · exact .inr ⟨_, by simp, rfl⟩
    · obtain hnil | ⟨m, hm, he⟩ := ih h
      · exact .inl hnil
      · exact .inr ⟨m, by simp [hm], he⟩

theorem getLast?_terminated (text : List Char) : (terminated text).getLast? = some '\n' := by
  by_cases h : text.getLast? = some '\n'
  · rw [terminated_of_last h, h]
  · rw [terminated_of_not_last h, List.getLast?_concat]

theorem closingLine_not_mem_terminated (h : ∀ l ∈ lines text, l.content ≠ closingLine) :
    ∀ l ∈ lines (terminated text), l.content ≠ closingLine := by
  by_cases hlast : text.getLast? = some '\n'
  · rwa [terminated_of_last hlast]
  · rw [terminated_of_not_last hlast]
    intro l hl
    obtain hnil | ⟨m, hm, he⟩ := lines_append_singleton hl
    · rw [hnil]
      decide
    · rw [← he]
      exact h m hm

end Terminated

section Blocks

variable {es : List Entry} {path text : List Char}

theorem pathOf?_eq (path : List Char) :
    pathOf? ("<path>".toList ++ path ++ "</path>".toList) = some path := by
  have htake : (("<path>".toList ++ path ++ "</path>".toList).drop 6).take
      (("<path>".toList ++ path ++ "</path>".toList).length - 13) = path := by
    simp
  simp only [pathOf?, htake, if_true]

-- Every line of a content is taken over, up to the one that closes it.
theorem feed_inside (hlast : text = [] ∨ text.getLast? = some '\n')
    (h : ∀ l ∈ lines text, l.content ≠ closingLine) (content rest : List Char) :
    (inside es path content).feed (text ++ rest) =
      (inside es path (content ++ text)).feed rest := by
  induction text using lines_induction generalizing content with
  | nil => simp
  | last line hnot hne =>
    have hmem := List.mem_of_getLast? (hlast.resolve_left hne)
    exact absurd hmem hnot
  | line line more hnot ih =>
    rw [lines_append_newline hnot] at h
    have hmore : more = [] ∨ more.getLast? = some '\n' := by
      by_cases hnil : more = []
      · exact .inl hnil
      · refine .inr ?_
        have hlast' := hlast.resolve_left (by simp)
        rwa [List.getLast?_append_cons, List.getLast?_cons_of_ne_nil hnil] at hlast'
    have hline : line ≠ closingLine := h ⟨line, true⟩ (by simp)
    rw [List.append_assoc, List.cons_append, feed_line _ hnot, next, if_neg hline,
      Option.bind_some, ih hmore fun l hl => h l (by simp [hl])]
    simp

theorem feed_render {f : FileMap} (h : f.Plain) (rest : List Char) :
    (between es).feed (f.render ++ rest) = (between (es ++ [f.entry])).feed rest := by
  have hpath : '\n' ∉ "<path>".toList ++ f.path ++ "</path>".toList := by
    simp [h.path]
  have hblock : f.render ++ rest =
      "<file>".toList ++ '\n' :: ("<path>".toList ++ f.path ++ "</path>".toList ++ '\n' ::
        ("<file_map>".toList ++ '\n' :: (terminated f.content ++ (closingLine ++ '\n' ::
          ("</file>".toList ++ '\n' :: rest))))) := by
    have hopening : "<file>\n<path>".toList = "<file>".toList ++ '\n' :: "<path>".toList := by
      decide
    have hmiddle : "</path>\n<file_map>\n".toList =
        "</path>".toList ++ '\n' :: ("<file_map>".toList ++ ['\n']) := by decide
    have hclosing : "</file_map>\n</file>\n".toList =
        closingLine ++ '\n' :: ("</file>".toList ++ ['\n']) := by decide
    unfold FileMap.render
    simp only [hopening, hmiddle, hclosing, List.append_assoc, List.cons_append, List.nil_append]
  have hinside := @feed_inside es f.path (terminated f.content)
    (.inr (getLast?_terminated f.content)) (closingLine_not_mem_terminated h.content)
  rw [hblock, feed_line _ (by decide), next, if_pos rfl, Option.bind_some, feed_line _ hpath, next,
    pathOf?_eq, Option.map_some, Option.bind_some, feed_line _ (by decide), next, if_pos rfl,
    Option.bind_some, hinside, feed_line _ (by decide), next, if_pos rfl, Option.bind_some,
    feed_line _ (by decide), next, if_pos rfl, Option.bind_some]
  rfl

theorem feed_flatMap_render {files : List FileMap} (h : ∀ f ∈ files, f.Plain) (rest : List Char) :
    (between es).feed (files.flatMap FileMap.render ++ rest) =
      (between (es ++ files.map entry)).feed rest := by
  induction files generalizing es with
  | nil => simp
  | cons f files ih =>
    rw [List.flatMap_cons, List.append_assoc, feed_render (h f (by simp)),
      ih fun g hg => h g (by simp [hg])]
    simp

end Blocks

theorem decode?_render {files : List FileMap} (h : ∀ f ∈ files, f.Plain) :
    decode? (render files) = some (files.map entry) := by
  have hdoc : render files = "<code_map>".toList ++ '\n' ::
      (files.flatMap FileMap.render ++ ("</code_map>".toList ++ '\n' :: [])) := by
    have hopening : "<code_map>\n".toList = "<code_map>".toList ++ ['\n'] := by decide
    have hclosing : "</code_map>\n".toList = "</code_map>".toList ++ ['\n'] := by decide
    unfold render
    simp only [hopening, hclosing, List.append_assoc, List.cons_append, List.nil_append]
  rw [decode?, hdoc, feed_line _ (by decide), next, if_pos rfl, Option.bind_some,
    feed_flatMap_render h, feed_line _ (by decide)]
  rfl

theorem flatten_pieces (files : List FileMap) : (pieces files).flatten = render files := by
  unfold pieces render
  simp only [List.flatten_cons, List.flatten_append, List.flatten_nil, List.append_nil,
    List.flatMap_def, List.append_assoc]

theorem sent_pieces (files : List FileMap) (sent : List UInt8) :
    (pieces files).foldl (fun sent piece => sent ++ Text.encode piece) sent =
      sent ++ Text.encode (render files) := by
  rw [← flatten_pieces]
  induction pieces files generalizing sent with
  | nil => simp [Text.encode]
  | cons piece rest ih =>
    rw [List.foldl_cons, ih, List.flatten_cons, Text.encode_append, List.append_assoc]

theorem exists_render_eq {files : List FileMap} {f : FileMap} (hf : f ∈ files) :
    ∃ before after, render files = before ++ "<file_map>\n".toList ++ terminated f.content ++
      "</file_map>\n".toList ++ after := by
  obtain ⟨pre, post, rfl⟩ := List.append_of_mem hf
  have hmiddle : "</path>\n<file_map>\n".toList = "</path>\n".toList ++ "<file_map>\n".toList := by
    decide
  have hclosing : "</file_map>\n</file>\n".toList =
      "</file_map>\n".toList ++ "</file>\n".toList := by decide
  refine ⟨"<code_map>\n".toList ++ pre.flatMap FileMap.render ++ "<file>\n<path>".toList ++
    f.path ++ "</path>\n".toList, "</file>\n".toList ++ post.flatMap FileMap.render ++
    "</code_map>\n".toList, ?_⟩
  unfold render FileMap.render
  simp only [List.flatMap_append, List.flatMap_cons, hmiddle, hclosing, List.append_assoc]

theorem exists_passed_through {files : List FileMap} {options : MapOptions} {path text : List Char}
    {bytes : List UInt8} {f : FileMap} (hf : f ∈ files) (htext : Content.text bytes = .ok text)
    (hlanguage : Language.ofPath? path = none) (hmap : Abridge.fileMap options path text = .ok f)
    (hlast : text.getLast? = some '\n') : ∃ before after, Text.encode (render files) =
      Text.encode (before ++ "<file_map>\n".toList) ++ bytes ++
        Text.encode ("</file_map>\n".toList ++ after) := by
  have hcontent : f.content = text := by
    obtain ⟨-, -, hfile⟩ := Abridge.fileMap_eq_ok_iff.mp hmap
    simpa [Abridge.file, hlanguage] using hfile.symm
  have hbytes : Text.encode text = bytes := Content.encode_of_text_eq_ok htext
  obtain ⟨before, after, hrender⟩ := exists_render_eq hf
  refine ⟨before, after, ?_⟩
  rw [hrender, hcontent, terminated_of_last hlast, ← hbytes]
  simp only [Text.encode_append, List.append_assoc]

/-- A document says which files it was made of, in their order, with their paths and their contents
up to a last newline, where paths are single lines and contents have no closing line among theirs.
A file of no language that ends in a newline is in it byte for byte, and a writer is sent the same
bytes piece by piece. -/
theorem document_determines_files {files : List FileMap} (h : ∀ f ∈ files, f.Plain) :
    decode? (render files) = some (files.map entry) ∧
    (∀ others : List FileMap, (∀ f ∈ others, f.Plain) → render others = render files →
      others.map entry = files.map entry) ∧
    (∀ options path text bytes, ∀ f ∈ files, Content.text bytes = .ok text →
      Language.ofPath? path = none → Abridge.fileMap options path text = .ok f →
      text.getLast? = some '\n' → ∃ before after, Text.encode (render files) =
        Text.encode (before ++ "<file_map>\n".toList) ++ bytes ++
          Text.encode ("</file_map>\n".toList ++ after)) ∧
    ∀ sent, (pieces files).foldl (fun sent piece => sent ++ Text.encode piece) sent =
      sent ++ Text.encode (render files) := by
  have hdecode := decode?_render h
  refine ⟨hdecode, fun others hothers he => ?_, ?_, sent_pieces files⟩
  · have hother := decode?_render hothers
    rw [he, hdecode] at hother
    exact (Option.some.inj hother).symm
  · intro options path text bytes f hf htext hlanguage hmap hlast
    exact exists_passed_through hf htext hlanguage hmap hlast

def taggedFiles : List FileMap :=
  [⟨"</path>a".toList, none, "<file_map>\n </file_map>\n</file>".toList⟩, ⟨[], none, []⟩]

theorem document_determines_taggedFiles :
    decode? (render taggedFiles) = some
      [⟨"</path>a".toList, "<file_map>\n </file_map>\n</file>\n".toList⟩, ⟨[], ['\n']⟩] := by
  have hplain : ∀ f ∈ taggedFiles, f.Plain := by
    intro f hf
    have hpath : ∀ f ∈ taggedFiles, '\n' ∉ f.path := by decide
    have hcontent : ∀ f ∈ taggedFiles, ∀ l ∈ lines f.content, l.content ≠ closingLine := by decide
    exact ⟨hpath f hf, hcontent f hf⟩
  exact (document_determines_files hplain).1

end Document
end Synopsis
