import ProtoSchema.Linked

/-!
The files reachable from others along chosen edges. Each path is listed once,
at its first visit; the files that a file leads to are visited right behind it.
-/

namespace ProtoSchema.Linked

/-- The files reached from `pending`, first to last, leaving out the paths in
`seen` and what only they lead to. -/
def closure (next : File → List File)
    (hnext : ∀ file, weight (next file) < sizeOf file)
    (seen : List VirtualPath) (pending : List File) : List File :=
  match pending with
  | [] => []
  | file :: rest =>
    if file.path ∈ seen then closure next hnext seen rest
    else file :: closure next hnext (file.path :: seen) (next file ++ rest)
termination_by weight pending
decreasing_by
  · have := file.sizeOf_imports_lt
    simp only [weight]
    omega
  · have := hnext file
    simp only [weight, weight_append]
    omega

/-- A file and what it passes on through reexporting imports, the last of which
is followed first. -/
def passedOn (file : File) : List File :=
  closure (fun f => f.reexports.reverse)
    (fun f => by
      rw [weight_reverse]
      exact f.weight_reexports_lt)
    [] [file]

/-- The given files and all that they import. -/
def withDependencies (roots : List File) : List File :=
  closure File.dependencies File.weight_dependencies_lt [] roots

end ProtoSchema.Linked
