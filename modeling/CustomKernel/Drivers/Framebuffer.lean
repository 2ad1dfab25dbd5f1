/-
Module: CustomKernel.Drivers.Framebuffer
Layer: Drivers
Purpose: The frame buffer `src/drivers/framebuffer.c`: clearing, single pixels and rectangles. The
  port writes of the same file, for the mode and the palette, are in `Drivers.VideoMode`.
Imports: CustomKernel.Library.IntLoops, CustomKernel.Library.Loops
Trusted boundary: the translation of the source; the frame buffer is memory of its own
Main exports: Framebuffer, Framebuffer.store, fbClear, fbPutPixel, fbDrawRect
-/
import CustomKernel.Library.IntLoops
import CustomKernel.Library.Loops

namespace CustomKernel

open IntLoops Loops

/-- `FB_WIDTH`. -/
abbrev fbWidth : Nat := 320

/-- `FB_HEIGHT`. -/
abbrev fbHeight : Nat := 200

/-- The memory behind `fb`, by `int` index; `stores` are the indices that have been written. -/
structure Framebuffer where
  pixels : Int → BitVec 8
  stores : List Int := []

/-- `fb[i] = colour`. -/
def Framebuffer.store (fb : Framebuffer) (i : Int) (colour : BitVec 8) : Framebuffer where
  pixels := fun j => if j = i then colour else fb.pixels j
  stores := i :: fb.stores

/-- `fb_clear`. -/
def fbClear (fb : Framebuffer) (colour : BitVec 8) : Framebuffer :=
  forRange 0 (fbWidth * fbHeight) (fun i fb => fb.store i colour) fb

/-- `fb_put_pixel`. The comparisons are those of `unsigned`. -/
def fbPutPixel (fb : Framebuffer) (x y : BitVec 32) (colour : BitVec 8) : Framebuffer :=
  if x.toNat ≥ fbWidth ∨ y.toNat ≥ fbHeight then fb
  else fb.store (y * BitVec.ofNat 32 fbWidth + x).toInt colour

/-- `fb_draw_rect`. -/
def fbDrawRect (fb : Framebuffer) (x y w h : BitVec 32) (colour : BitVec 8) : Framebuffer :=
  forInt h (fun dy fb =>
    forInt w (fun dx fb => fbPutPixel fb (x + dx) (y + dy) colour) 0 fb) 0 fb

end CustomKernel
