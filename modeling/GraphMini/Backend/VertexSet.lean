import GraphMini.Lib.SortedList

/-!
# Vertex sets

`VertexSet` of `backend/vertex_set.h`: an array of ids and the id of the vertex whose neighbours it
lists, if it is an adjacency list. The operations are the two-pointer loops of the header; a pair of
indices into the two arrays is the pair of suffixes still to be read. A loop that takes an upper
bound and its copy without one are one definition with an optional bound.
-/

namespace GraphMini

/-- `IdType` is `uint32_t`; the vid of a set that is no adjacency list is `static_cast<IdType>(-1)`. -/
def invalidId : ℕ := 2 ^ 32 - 1

structure VertexSet where
  data : List ℕ
  vid : ℕ := invalidId
deriving DecidableEq, Repr

namespace VertexSet

def size (s : VertexSet) : ℕ := s.data.length

end VertexSet

/-- `x >= upper` of the bounded loops; the loops without a bound never stop. -/
def reaches : Option ℕ → ℕ → Bool
  | none, _ => false
  | some upper, x => decide (upper ≤ x)

/-- The elements `VertexSet::intersect` writes to its buffer. -/
def intersectLoop (upper : Option ℕ) : List ℕ → List ℕ → List ℕ
  | left :: ls, right :: rs =>
      if reaches upper left || reaches upper right then []
      else if left < right then intersectLoop upper ls (right :: rs)
      else if right < left then intersectLoop upper (left :: ls) rs
      else left :: intersectLoop upper ls rs
  | _, _ => []
termination_by ls rs => ls.length + rs.length

/-- `VertexSet::intersect_cnt`: the same loop with a counter in place of the buffer. -/
def intersectCntLoop (upper : Option ℕ) : List ℕ → List ℕ → ℕ → ℕ
  | left :: ls, right :: rs, outSize =>
      if reaches upper left || reaches upper right then outSize
      else if left < right then intersectCntLoop upper ls (right :: rs) outSize
      else if right < left then intersectCntLoop upper (left :: ls) rs outSize
      else intersectCntLoop upper ls rs (outSize + 1)
  | _, _, outSize => outSize
termination_by ls rs => ls.length + rs.length

/-- The second loop of `VertexSet::subtract`, over what is left of the receiver. -/
def subtractRest (upper : Option ℕ) (vid : ℕ) : List ℕ → List ℕ
  | [] => []
  | left :: ls =>
      if reaches upper left then []
      else if left ≠ vid then left :: subtractRest upper vid ls
      else subtractRest upper vid ls

/-- The elements `VertexSet::subtract` writes: the merge, then the rest of the receiver. -/
def subtractLoop (upper : Option ℕ) (vid : ℕ) : List ℕ → List ℕ → List ℕ
  | left :: ls, right :: rs =>
      if reaches upper left || reaches upper right then subtractRest upper vid (left :: ls)
      else if left < right then
        if left ≠ vid then left :: subtractLoop upper vid ls (right :: rs)
        else subtractLoop upper vid ls (right :: rs)
      else if right < left then subtractLoop upper vid (left :: ls) rs
      else subtractLoop upper vid ls rs
  | ls, _ => subtractRest upper vid ls
termination_by ls rs => ls.length + rs.length

/-- The second loop of `VertexSet::subtract_cnt`. -/
def subtractCntRest (upper : Option ℕ) (vid : ℕ) : List ℕ → ℕ → ℕ
  | [], outSize => outSize
  | left :: ls, outSize =>
      if reaches upper left then outSize
      else if left ≠ vid then subtractCntRest upper vid ls (outSize + 1)
      else subtractCntRest upper vid ls outSize

/-- `VertexSet::subtract_cnt`. -/
def subtractCntLoop (upper : Option ℕ) (vid : ℕ) : List ℕ → List ℕ → ℕ → ℕ
  | left :: ls, right :: rs, outSize =>
      if reaches upper left || reaches upper right then
        subtractCntRest upper vid (left :: ls) outSize
      else if left < right then
        if left ≠ vid then subtractCntLoop upper vid ls (right :: rs) (outSize + 1)
        else subtractCntLoop upper vid ls (right :: rs) outSize
      else if right < left then subtractCntLoop upper vid (left :: ls) rs outSize
      else subtractCntLoop upper vid ls rs outSize
  | ls, _, outSize => subtractCntRest upper vid ls outSize
termination_by ls rs => ls.length + rs.length

/-- The binary search of `bounded`, `remove` and their counts: `count` elements from `idxL` on
may still be below the bound. -/
def binarySearch (data : List ℕ) (upper : ℕ) (idxL count : ℕ) : ℕ :=
  if 0 < count then
    let step := count / 2
    if data.getD (idxL + step) 0 < upper then
      binarySearch data upper (idxL + step + 1) (count - (step + 1))
    else binarySearch data upper idxL step
  else idxL
termination_by count

/-- The scan of `bounded`, `remove` and their counts: how far `idx_l` runs. -/
def linearSearch (upper : ℕ) : List ℕ → ℕ → ℕ
  | [], idxL => idxL
  | x :: xs, idxL => if x < upper then linearSearch upper xs (idxL + 1) else idxL

/-- The position `bounded`, `bounded_cnt`, `remove` and `remove_cnt` begin with. -/
def searchUpper (data : List ℕ) (upper : ℕ) : ℕ :=
  if 64 < data.length then binarySearch data upper 0 data.length else linearSearch upper data 0

namespace VertexSet

def intersect (s other : VertexSet) (upper : Option ℕ) : VertexSet :=
  { data := intersectLoop upper s.data other.data }

def intersectCnt (s other : VertexSet) (upper : Option ℕ) : ℕ :=
  intersectCntLoop upper s.data other.data 0

def subtract (s other : VertexSet) (upper : Option ℕ) : VertexSet :=
  { data := subtractLoop upper other.vid s.data other.data }

def subtractCnt (s other : VertexSet) (upper : Option ℕ) : ℕ :=
  subtractCntLoop upper other.vid s.data other.data 0

/-- A view of the receiver's first elements. -/
def bounded (s : VertexSet) (upper : ℕ) : VertexSet :=
  { data := s.data.take (searchUpper s.data upper), vid := s.vid }

def boundedCnt (s : VertexSet) (upper : ℕ) : ℕ := searchUpper s.data upper

/-- `remove` finds its argument: the elements around it are then copied to a pooled buffer. -/
def removeFinds (s : VertexSet) (upper : ℕ) : Bool :=
  s.data[searchUpper s.data upper]? == some upper

/-- A copy without the argument where it is found, else a view of the receiver without its vid. -/
def remove (s : VertexSet) (upper : ℕ) : VertexSet :=
  let idxL := searchUpper s.data upper
  if s.removeFinds upper then { data := s.data.take idxL ++ s.data.drop (idxL + 1) }
  else { data := s.data }

def removeCnt (s : VertexSet) (upper : ℕ) : ℕ :=
  if s.removeFinds upper then s.data.length - 1 else s.data.length

end VertexSet

end GraphMini
