/-
Module: CustomKernel.Drivers.Timer
Layer: Drivers
Purpose: The set-up of the timer in `src/drivers/timer.c` and of the keyboard in
  `src/drivers/keyboard.c`, as far as it is port accesses: the handlers are registered in between.
  The handlers are modelled where they are used.
Imports: CustomKernel.Drivers.Pic, CustomKernel.Hardware.IntervalTimer
Trusted boundary: the translation of the source
Main exports: keyboardInit, timerInit
-/
import CustomKernel.Drivers.Pic
import CustomKernel.Hardware.IntervalTimer

namespace CustomKernel

open PortProgram

/-- `keyboard_init`. -/
def keyboardInit : PortProgram Unit := picUnmask 1

/-- `timer_init`. A frequency of 0 is divided by, and there is no program. -/
def timerInit (frequency : BitVec 32) : Option (PortProgram Unit) :=
  if frequency = 0 then none
  else
    let divisor := 1193182 / frequency
    some do
      outb pitCommand 0x36
      outb (pitData 0) ((divisor &&& 0xFF).setWidth 8)
      outb (pitData 0) ((divisor >>> 8 &&& 0xFF).setWidth 8)
      picUnmask 0

end CustomKernel
