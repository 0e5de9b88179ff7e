/-!
# Systems of linear equations

Square systems of floats, solved by elimination with the largest entry of each column as pivot.
-/

namespace DualDynamic.LinearSystem

/-- A square system: its size, the rows one after the other, and the right hand side. -/
structure System where
  size : Nat
  entries : FloatArray
  rhs : FloatArray

/-- A vector of zeros. -/
def zeros (n : Nat) : FloatArray := ⟨Array.replicate n 0.0⟩

/-- An entry of the matrix. -/
def System.entry (s : System) (i j : Nat) : Float := s.entries.get! (i * s.size + j)

/-- The row from `k` on with the largest entry in column `k`. -/
def System.pivotRow (s : System) (k : Nat) : Nat :=
  (List.range (s.size - k)).foldl (fun best d =>
    if (s.entry best k).abs < (s.entry (k + d) k).abs then k + d else best) k

/-- Exchanges two rows. -/
def System.exchange (s : System) (i k : Nat) : System :=
  if i == k then s
  else
    let entries := (List.range s.size).foldl (fun e j =>
      let a := e.get! (i * s.size + j)
      let b := e.get! (k * s.size + j)
      (e.set! (i * s.size + j) b).set! (k * s.size + j) a) s.entries
    let a := s.rhs.get! i
    let b := s.rhs.get! k
    { s with entries := entries, rhs := (s.rhs.set! i b).set! k a }

/-- Clears column `k` below the diagonal. -/
def System.clearBelow (s : System) (k : Nat) : System :=
  let n := s.size
  let pivot := s.entry k k
  (List.range (n - k - 1)).foldl (fun s d =>
    let i := k + 1 + d
    let factor := s.entry i k / pivot
    if factor == 0.0 then s
    else
      let entries := (List.range (n - k)).foldl (fun e c =>
        let j := k + c
        e.set! (i * n + j) (e.get! (i * n + j) - factor * e.get! (k * n + j))) s.entries
      { s with entries := entries, rhs := s.rhs.set! i (s.rhs.get! i - factor * s.rhs.get! k) }) s

/-- The system in triangular form, unless it has no unique solution. -/
def System.triangular (s : System) : Option System :=
  (List.range s.size).foldlM (fun s k =>
    let s := s.exchange (s.pivotRow k) k
    if s.entry k k == 0.0 then none else some (s.clearBelow k)) s

/-- The solution of a triangular system, from the last unknown to the first. -/
def System.substitute (s : System) : FloatArray :=
  (List.range s.size).foldl (fun x d =>
    let i := s.size - 1 - d
    let known := (List.range d).foldl (fun total c =>
      let j := i + 1 + c
      total + s.entry i j * x.get! j) 0.0
    x.set! i ((s.rhs.get! i - known) / s.entry i i)) (zeros s.size)

/-- The solution of a system, unless there is no unique one. -/
def System.solve (s : System) : Option FloatArray := s.triangular.map System.substitute

end DualDynamic.LinearSystem
