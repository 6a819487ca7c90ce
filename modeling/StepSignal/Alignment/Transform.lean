/-!
# Fourier transforms of doubles

The transform of a wave `x` of length `n = 2 ^ levels` is the wave

    X f = sum over j of x j * turn (f * j)

where `turn t` is the complex number that a `t / n` part of a full turn leads to, clockwise for the
forward transform and counterclockwise for the inverse one. Neither divides by the length.

A wave is transformed in stages. Before the stage of stride `s` every part of the wave that takes each
`2 s`-th place has been transformed by itself; the stage makes two neighbouring parts into one, and
the last stage, of stride 1, completes the whole. The values of one part stand `2 s` places apart, in
the order of their frequencies, so that no stage has to sort them.
-/

namespace StepSignal

/-- A complex number. -/
structure Phasor where
  re : Float
  im : Float

namespace Phasor

@[inline] def add (a b : Phasor) : Phasor := ⟨a.re + b.re, a.im + b.im⟩

@[inline] def sub (a b : Phasor) : Phasor := ⟨a.re - b.re, a.im - b.im⟩

@[inline] def mul (a b : Phasor) : Phasor :=
  ⟨a.re * b.re - a.im * b.im, a.re * b.im + a.im * b.re⟩

/-- The mirror image at the real axis. -/
@[inline] def conjugate (a : Phasor) : Phasor := ⟨a.re, -a.im⟩

end Phasor

/-- A sequence of complex numbers, their real and imaginary parts in arrays of equal size. -/
structure Wave where
  re : FloatArray
  im : FloatArray

namespace Wave

/-- The number at place `i` of an array, zero beyond its end. Called and not inlined, it hands over a
plain double, so that complex numbers stay off the heap. -/
@[noinline] def entry (xs : FloatArray) (i : Nat) : Float := if h : i < xs.size then xs.get i h else 0

/-- The complex number at place `i`, zero beyond the end. -/
@[inline] def get (w : Wave) (i : Nat) : Phasor := ⟨entry w.re i, entry w.im i⟩

/-- Adds a complex number at the end. -/
@[inline] def push (w : Wave) (a : Phasor) : Wave := ⟨w.re.push a.re, w.im.push a.im⟩

/-- No numbers, in arrays with room for `n`. -/
def empty (n : Nat) : Wave := ⟨.emptyWithCapacity n, .emptyWithCapacity n⟩

/-- Adds the values of `f` at the end, row by row. -/
@[inline] def append (start : Wave) (rows columns : Nat) (f : Nat → Nat → Phasor) : Wave :=
  rows.fold (fun k _ w => columns.fold (fun q _ w => w.push (f k q)) w) start

/-- The wave of the values of `f` at the places below `n`. -/
@[inline] def ofFn (n : Nat) (f : Nat → Phasor) : Wave := n.fold (fun i _ w => w.push (f i)) (empty n)

/-- The wave of a sequence of real numbers. -/
def ofReals (xs : List Float) : Wave := xs.foldl (fun w x => w.push ⟨x, 0⟩) (empty xs.length)

/-- The real parts. -/
def reals (w : Wave) : List Float := (List.range w.re.size).map (entry w.re)

/-- The complex numbers of the first half of a full turn in `n` steps, clockwise. -/
def turns (n : Nat) : Wave :=
  let step := -2.0 * 3.141592653589793 / Float.ofNat n
  ofFn (n / 2) fun t =>
    let angle := step * Float.ofNat t
    ⟨angle.cos, angle.sin⟩

/-- The mirror images at the real axis. -/
def mirrored (w : Wave) : Wave := ofFn w.re.size fun i => (w.get i).conjugate

/-- The stage of stride `s` of a transform of length `2 * s * count`, where `2 * s` parts of length
`count` become `s` parts of twice that length. At each frequency `k` the value of the part `q + s` is
turned by as much as that part lags behind the part `q`. The sum and the difference of the two are
values of the joined part. -/
def stage (turns : Wave) (count s : Nat) (w : Wave) : Wave :=
  let earlier (k q : Nat) : Phasor := w.get (2 * k * s + q)
  let later (k q : Nat) : Phasor := (w.get (2 * k * s + q + s)).mul (turns.get (k * s))
  let sums := append (empty (2 * s * count)) count s fun k q => (earlier k q).add (later k q)
  append sums count s fun k q => (earlier k q).sub (later k q)

/-- The stages of strides `2 ^ (k - 1)` down to 1, of which the first joins parts of length `count`. -/
def stages (turns : Wave) (count : Nat) : Nat → Wave → Wave
  | 0, w => w
  | k + 1, w => stages turns (2 * count) k (stage turns count (1 <<< k) w)

/-- The transform of a wave of length `2 ^ levels`, in the direction of `turns`. -/
def transform (turns : Wave) (levels : Nat) (w : Wave) : Wave := stages turns 1 levels w

end Wave

/-- The circular correlations of two sequences of length `2 ^ levels`. In the transform of the
correlation every frequency is the product of what it is in `a` and, mirrored, in `r`. -/
def transformedCorrelations (levels : Nat) (a r : List Float) : List Float :=
  let n := 1 <<< levels
  let turns := Wave.turns n
  let fa := Wave.transform turns levels (.ofReals a)
  let fr := Wave.transform turns levels (.ofReals r)
  let product := Wave.ofFn n fun f => (fa.get f).mul (fr.get f).conjugate
  let sums := Wave.transform turns.mirrored levels product
  sums.reals.map (· / Float.ofNat n)

end StepSignal
