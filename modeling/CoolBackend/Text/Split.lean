namespace CoolBackend.Text

/-- The parts of a list between separators: always at least one. -/
def splitAt {α : Type} [DecidableEq α] (separator : α) : List α → List (List α)
  | [] => [[]]
  | a :: rest =>
    if a = separator then [] :: splitAt separator rest
    else match splitAt separator rest with
      | [] => [[a]]
      | part :: parts => (a :: part) :: parts

def suffixes {α : Type} : List α → List (List α)
  | [] => [[]]
  | a :: rest => (a :: rest) :: suffixes rest

end CoolBackend.Text
