namespace SkosArchive.Text

/-- The parts of a text between the marks. -/
def split (mark : Char) (s : List Char) : List (List Char) :=
  s.foldr (fun c parts =>
    if c = mark then [] :: parts
    else match parts with
      | [] => [[c]]
      | part :: parts => (c :: part) :: parts) [[]]

end SkosArchive.Text
