import Synopsis.Language

/-!
# The code map document

The abridged files of a run, each in a block with its path, one after the other.
-/

namespace Synopsis

structure FileMap where
  path : List Char
  language : Option Language
  content : List Char
deriving DecidableEq, Repr

namespace FileMap

def terminated (text : List Char) : List Char :=
  if text.getLast? == some '\n' then text else text ++ ['\n']

def render (f : FileMap) : List Char :=
  "<file>\n<path>".toList ++ f.path ++ "</path>\n<file_map>\n".toList ++ terminated f.content ++
    "</file_map>\n</file>\n".toList

end FileMap

namespace Document

def render (files : List FileMap) : List Char :=
  "<code_map>\n".toList ++ files.flatMap FileMap.render ++ "</code_map>\n".toList

def pieces (files : List FileMap) : List (List Char) :=
  "<code_map>\n".toList :: (files.map FileMap.render ++ ["</code_map>\n".toList])

end Document
end Synopsis
