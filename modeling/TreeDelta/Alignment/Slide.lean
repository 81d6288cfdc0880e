import TreeDelta.Alignment.Run
set_option autoImplicit false

/-!
# Sliding changes together

An insertion next to kept elements can be moved past them if these end or begin
as it does. Every deletion and then every insertion is moved up as far as it goes
and then down as far as it goes, and is joined with runs of its kind on the way.
-/
namespace TreeDelta.Alignment

variable {α : Type} [DecidableEq α]

/-- A run among those before it, nearest first, and those after it. -/
structure Focus where
  before : List Run
  run : Run
  after : List Run

def keepBefore (r : Run) : List Run → List Run
  | x :: rest =>
    if x.kind = .keep then { x with old := x.old - r.len, new := x.new - r.len, len := x.len + r.len } :: rest
    else r :: x :: rest
  | [] => [r]

def keepAfter (r : Run) : List Run → List Run
  | x :: rest => if x.kind = .keep then { x with len := x.len + r.len } :: rest else r :: x :: rest
  | [] => [r]

def unlessEmpty (r : Run) (rest : List Run) : List Run := if r.len = 0 then rest else r :: rest

def roomAbove (old new : List α) (kept r : Run) : Nat :=
  if r.kind = .insert then commonEnd (slice old kept.old kept.len) (slice new r.new r.len) else 0

def roomBelow (old new : List α) (kept r : Run) : Nat :=
  if r.kind = .insert then commonStart (slice old kept.old kept.len) (slice new r.new r.len) else 0

def slideUp (old new : List α) : Nat → Focus → Focus
  | 0, f => f
  | fuel + 1, ⟨before, r, after⟩ =>
    match before with
    | [] => ⟨[], r, after⟩
    | q :: before =>
      if q.kind = .keep then
        let s := roomAbove old new q r
        if s = 0 then
          if q.len = 0 then slideUp old new fuel ⟨before, r, after⟩ else ⟨q :: before, r, after⟩
        else
          let kept : Run := ⟨.keep, q.old + q.len - s, r.new + r.len - s, s⟩
          slideUp old new fuel
            ⟨unlessEmpty { q with len := q.len - s } before,
              { r with old := r.old - s, new := r.new - s }, keepBefore kept after⟩
      else if q.kind = r.kind then slideUp old new fuel ⟨before, { q with len := q.len + r.len }, after⟩
      else slideUp old new fuel ⟨before, r, q :: after⟩

def slideDown (old new : List α) : Nat → Focus → Focus
  | 0, f => f
  | fuel + 1, ⟨before, r, after⟩ =>
    match after with
    | [] => ⟨before, r, []⟩
    | x :: after =>
      if x.kind = .keep then
        let s := roomBelow old new x r
        if s = 0 then
          if x.len = 0 then slideDown old new fuel ⟨before, r, after⟩ else ⟨before, r, x :: after⟩
        else
          let kept : Run := ⟨.keep, x.old, r.new, s⟩
          slideDown old new fuel
            ⟨keepAfter kept before, { r with old := r.old + s, new := r.new + s },
              unlessEmpty { x with old := x.old + s, new := x.new + s, len := x.len - s } after⟩
      else if x.kind = r.kind then slideDown old new fuel ⟨before, { r with len := r.len + x.len }, after⟩
      else slideDown old new fuel ⟨x :: before, r, after⟩

def slideBound (rs : List Run) : Nat := rs.foldr (fun r bound => 2 * r.len + 1 + bound) 0

def slidePass (old new : List α) (kind : RunKind) : Nat → List Run → List Run → List Run
  | 0, before, after => before.reverse ++ after
  | _, before, [] => before.reverse
  | fuel + 1, before, r :: after =>
    if r.kind = kind then
      let bound := slideBound (before ++ r :: after)
      let f := slideDown old new bound (slideUp old new bound ⟨before, r, after⟩)
      slidePass old new kind fuel (f.run :: f.before) f.after
    else slidePass old new kind fuel (r :: before) after

def slideAll (old new : List α) (rs : List Run) : List Run :=
  let rs := slidePass old new .delete (slideBound rs * slideBound rs) [] rs
  slidePass old new .insert (slideBound rs * slideBound rs) [] rs

end TreeDelta.Alignment
