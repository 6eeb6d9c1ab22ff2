import Cascade.Text.Basic

/-!
# Comments

A comment reaches from a slash and a star to the next star and slash, or to the
end of the text if there is none.  Taking comments out joins what stood on
either side and does not look at the joint again.
-/

namespace Cascade.Sheet

mutual

def stripComments : Text → Text
  | [] => []
  | '/' :: '*' :: rest => skipComment rest
  | c :: rest => c :: stripComments rest

/-- The text behind the comment that is open at its front, without the comments
in it. -/
def skipComment : Text → Text
  | [] => []
  | '*' :: '/' :: rest => stripComments rest
  | _ :: rest => skipComment rest

end

end Cascade.Sheet
