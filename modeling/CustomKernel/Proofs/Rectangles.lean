/-
Module: CustomKernel.Proofs.Rectangles
Layer: Proofs
Purpose: Which pixels the frame buffer driver writes. A call of `fb_put_pixel` writes the one pixel
  that its coordinates name, if that is on the screen; coordinates that have wrapped around are
  negative and name none. The loops of `fb_draw_rect` add up what their iterations write.
Imports: CustomKernel.Drivers.Framebuffer, Mathlib.Tactic.Common
Trusted boundary: none (fully proved)
Main exports: OnScreen, Painted, Painted.putPixel, Painted.drawRect, rectangle_clipped
-/
import CustomKernel.Drivers.Framebuffer
import Mathlib.Tactic.Common

namespace CustomKernel

open IntLoops Loops

/-- The column `i` and the row `j` are on the screen. -/
def OnScreen (i j : Int) : Prop := (0 ≤ i ∧ i < 320) ∧ 0 ≤ j ∧ j < 200

/-- The pixel in column `i`, row `j`. -/
def Framebuffer.pixel (fb : Framebuffer) (i j : Int) : BitVec 8 := fb.pixels (j * 320 + i)

/-- All writes have gone to the 320 × 200 bytes of the buffer. -/
def Framebuffer.InBuffer (fb : Framebuffer) : Prop := ∀ k ∈ fb.stores, 0 ≤ k ∧ k < 64000

/-- `fb'` is `fb` with the pixels of `region` that are on the screen in `colour`. -/
structure Painted (colour : BitVec 8) (region : Int → Int → Prop) (fb fb' : Framebuffer) : Prop where
  inside : ∀ i j, OnScreen i j → region i j → fb'.pixel i j = colour
  outside : ∀ i j, OnScreen i j → ¬ region i j → fb'.pixel i j = fb.pixel i j
  beyond : ∀ k, k < 0 ∨ 64000 ≤ k → fb'.pixels k = fb.pixels k
  inBuffer : fb.InBuffer → fb'.InBuffer

section Painting

variable {colour : BitVec 8} {region region' : Int → Int → Prop} {fb fb' fb'' : Framebuffer}

theorem Painted.refl (fb : Framebuffer) : Painted colour (fun _ _ => False) fb fb :=
  ⟨fun _ _ _ h => h.elim, fun _ _ _ _ => rfl, fun _ _ => rfl, id⟩

/-- What matters of a region is on the screen. -/
theorem Painted.congr (h : Painted colour region fb fb')
    (hsame : ∀ i j, OnScreen i j → (region' i j ↔ region i j)) : Painted colour region' fb fb' :=
  ⟨fun i j hij hin => h.inside i j hij ((hsame i j hij).1 hin),
    fun i j hij hout => h.outside i j hij fun hin => hout ((hsame i j hij).2 hin), h.beyond,
    h.inBuffer⟩

/-- Two paintings, one after the other. -/
theorem Painted.trans (first : Painted colour region fb fb')
    (second : Painted colour region' fb' fb'') :
    Painted colour (fun i j => region i j ∨ region' i j) fb fb'' where
  inside i j hij hin := by
    by_cases hlast : region' i j
    · exact second.inside i j hij hlast
    · rw [second.outside i j hij hlast]
      exact first.inside i j hij (hin.resolve_right hlast)
  outside i j hij hout := by
    rw [second.outside i j hij fun h => hout (.inr h)]
    exact first.outside i j hij fun h => hout (.inl h)
  beyond k hk := (second.beyond k hk).trans (first.beyond k hk)
  inBuffer h := second.inBuffer (first.inBuffer h)

/-- A pixel on the screen is stored at an index of its own. -/
theorem Painted.store {x y : Int} (hxy : OnScreen x y) (fb : Framebuffer) :
    Painted colour (fun i j => i = x ∧ j = y) fb (fb.store (y * 320 + x) colour) := by
  obtain ⟨⟨hx, hx'⟩, hy, hy'⟩ := hxy
  refine ⟨fun i j _ h => ?_, fun i j hij h => ?_, fun k hk => ?_, fun h => ?_⟩
  · rw [h.1, h.2]
    exact if_pos rfl
  · obtain ⟨⟨hi, hi'⟩, hj, hj'⟩ := hij
    exact if_neg fun heq => h (by omega)
  · exact if_neg (by omega)
  · exact List.forall_mem_cons.2 ⟨by omega, h⟩

/-- `fb_put_pixel` paints the pixel that its coordinates name. -/
theorem Painted.putPixel (fb : Framebuffer) (x y : BitVec 32) :
    Painted colour (fun i j => i = x.toInt ∧ j = y.toInt) fb (fbPutPixel fb x y colour) := by
  have hx := toInt_eq x
  have hy := toInt_eq y
  unfold fbPutPixel fbWidth fbHeight
  by_cases hscreen : x.toNat ≥ 320 ∨ y.toNat ≥ 200
  · -- off the screen, as `unsigned`: no pixel of the screen has these coordinates
    rw [if_pos hscreen]
    have := x.isLt
    have := y.isLt
    refine (Painted.refl fb).congr fun i j hij => ⟨fun h => ?_, False.elim⟩
    obtain ⟨⟨hi, hi'⟩, hj, hj'⟩ := hij
    rw [h.1, hx] at hi hi'
    rw [h.2, hy] at hj hj'
    split_ifs at hi hi' hj hj' <;> omega
  · rw [if_neg hscreen]
    rw [if_pos (by omega)] at hx hy
    have hindex : (y * BitVec.ofNat 32 320 + x).toInt = y.toInt * 320 + x.toInt := by
      have hnat : (y * BitVec.ofNat 32 320 + x).toNat = y.toNat * 320 + x.toNat := by
        rw [BitVec.toNat_add, BitVec.toNat_mul, BitVec.toNat_ofNat]
        omega
      rw [toInt_eq, hnat, if_pos (by omega), hx, hy]
      omega
    rw [hindex]
    exact Painted.store (by unfold OnScreen; omega) fb

/-- A coordinate that has wrapped around is not on the screen. -/
theorem wrapped_coordinate {x dx : BitVec 32} (hdx : 0 ≤ dx.toInt) {i : Int} (hi : 0 ≤ i ∧ i < 320) :
    i = (x + dx).toInt ↔ i = x.toInt + dx.toInt := by
  have hsum := BitVec.toNat_add x dx
  have := x.isLt
  have := dx.isLt
  rw [toInt_eq] at hdx
  rw [toInt_eq (x + dx), toInt_eq x, toInt_eq dx, hsum]
  split_ifs at hdx ⊢ <;> omega

/-- The inner loop paints the part of a row. -/
theorem Painted.row (fb : Framebuffer) (x y w dy : BitVec 32) (hdy : 0 ≤ dy.toInt) :
    Painted colour (fun i j => (x.toInt ≤ i ∧ i < x.toInt + w.toInt) ∧ j = y.toInt + dy.toInt) fb
      (forInt w (fun dx fb => fbPutPixel fb (x + dx) (y + dy) colour) 0 fb) := by
  have hloop := forInt_upto w
    (fun dx fb => fbPutPixel fb (x + dx) (y + dy) colour)
    (fun n fb' => Painted colour
      (fun i j => (x.toInt ≤ i ∧ i < x.toInt + n) ∧ j = y.toInt + dy.toInt) fb fb') fb
    ((Painted.refl fb).congr fun i j _ => by simp only [iff_false]; omega)
    (fun dx fb' hdx _ h => (h.trans (Painted.putPixel fb' (x + dx) (y + dy))).congr
      fun i j hij => by
        have hj : 0 ≤ j ∧ j < 320 := ⟨hij.2.1, by have := hij.2.2; omega⟩
        rw [wrapped_coordinate hdx hij.1, wrapped_coordinate hdy hj]
        omega)
  exact hloop.congr fun i j _ => by omega

/-- `fb_draw_rect` paints the rectangle. -/
theorem Painted.drawRect (fb : Framebuffer) (x y w h : BitVec 32) :
    Painted colour (fun i j => (x.toInt ≤ i ∧ i < x.toInt + w.toInt) ∧
      y.toInt ≤ j ∧ j < y.toInt + h.toInt) fb (fbDrawRect fb x y w h colour) := by
  have hloop := forInt_upto h
    (fun dy fb =>
      forInt w (fun dx fb => fbPutPixel fb (x + dx) (y + dy) colour) 0 fb)
    (fun n fb' => Painted colour (fun i j => (x.toInt ≤ i ∧ i < x.toInt + w.toInt) ∧
      y.toInt ≤ j ∧ j < y.toInt + n) fb fb') fb
    ((Painted.refl fb).congr fun i j _ => by simp only [iff_false]; omega)
    (fun dy fb' hdy _ hfb => (hfb.trans (Painted.row fb' x y w dy hdy)).congr
      fun i j _ => by omega)
  exact hloop.congr fun i j _ => by omega

end Painting

/-- `fb_clear` paints the whole screen. -/
theorem Painted.clear (fb : Framebuffer) (colour : BitVec 8) :
    Painted colour (fun _ _ => True) fb (fbClear fb colour) := by
  have hloop := @forRange_invariant _ (fun i (fb : Framebuffer) => fb.store i colour)
    (fun n fb' => Painted colour (fun i j => j * 320 + i < n) fb fb') 0 (fbWidth * fbHeight) fb
    (Nat.zero_le _)
    ((Painted.refl fb).congr fun i j hij => by
      obtain ⟨⟨hi, -⟩, hj, -⟩ := hij
      simp only [iff_false]
      omega)
    (fun n fb' _ hn hfb => by
      have hn' : n < 64000 := hn
      have hindex : (n : Int) = (n / 320 : Nat) * 320 + (n % 320 : Nat) := by omega
      have hscreen : OnScreen (n % 320 : Nat) (n / 320 : Nat) := by
        unfold OnScreen
        omega
      have hstore := @Painted.store colour _ _ hscreen fb'
      rw [← hindex] at hstore
      exact (hfb.trans hstore).congr fun i j hij => by
        obtain ⟨⟨hi, hi'⟩, hj, hj'⟩ := hij
        omega)
  refine hloop.congr fun i j hij => ?_
  obtain ⟨⟨hi, hi'⟩, hj, hj'⟩ := hij
  unfold fbWidth fbHeight
  simp only [true_iff]
  omega

/-- Column `i` and row `j` are in the rectangle, with nothing wrapped around. -/
def InRectangle (x y w h : BitVec 32) (i j : Int) : Prop :=
  (x.toInt ≤ i ∧ i < x.toInt + w.toInt) ∧ y.toInt ≤ j ∧ j < y.toInt + h.toInt

/-- `fb_draw_rect` with any coordinates and sizes: the pixels of the screen that lie in the rectangle
    get the colour, no other byte changes, and every write is to a byte of the buffer. -/
theorem rectangle_clipped (pixels : Int → BitVec 8) (x y w h : BitVec 32) (colour : BitVec 8) :
    (∀ i j : Int, 0 ≤ i → i < 320 → 0 ≤ j → j < 200 →
      ((fbDrawRect { pixels } x y w h colour).pixels (j * 320 + i) = colour ↔
        InRectangle x y w h i j ∨ pixels (j * 320 + i) = colour) ∧
      (¬ InRectangle x y w h i j →
        (fbDrawRect { pixels } x y w h colour).pixels (j * 320 + i) = pixels (j * 320 + i))) ∧
    (∀ k, k < 0 ∨ 64000 ≤ k → (fbDrawRect { pixels } x y w h colour).pixels k = pixels k) ∧
    ∀ k ∈ (fbDrawRect { pixels } x y w h colour).stores, 0 ≤ k ∧ k < 64000 := by
  have painted : Painted colour (InRectangle x y w h) { pixels }
      (fbDrawRect { pixels } x y w h colour) := Painted.drawRect _ x y w h
  refine ⟨fun i j hi hi' hj hj' => ?_, painted.beyond, painted.inBuffer (List.forall_mem_nil _)⟩
  have hij : OnScreen i j := ⟨⟨hi, hi'⟩, hj, hj'⟩
  have hin := painted.inside i j hij
  have hout := painted.outside i j hij
  refine ⟨⟨fun heq => ?_, fun hcases => ?_⟩, hout⟩
  · by_cases hregion : InRectangle x y w h i j
    · exact .inl hregion
    · exact .inr ((hout hregion).symm.trans heq)
  · by_cases hregion : InRectangle x y w h i j
    · exact hin hregion
    · exact (hout hregion).trans (hcases.resolve_left hregion)

end CustomKernel
