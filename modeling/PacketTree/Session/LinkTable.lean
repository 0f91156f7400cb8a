import PacketTree.Namespace.Basic

/-!
# Namespaces of link types

A table from the numbers of link types to the texts of the namespaces that packets of that type
start with. The numbers are in increasing order, so each occurs once.
-/

namespace PacketTree

/-- Texts of namespaces by the number of a link type. -/
structure LinkTable where
  /-- The numbers and texts. -/
  entries : List (UInt32 × String) := []
  /-- The numbers increase. -/
  sorted : entries.Pairwise (fun a b => a.1 < b.1) := by decide
deriving DecidableEq, Repr

namespace LinkTable

/-- Puts an entry into its place by number; an entry of the same number is replaced. -/
def insertEntry (n : UInt32) (text : String) : List (UInt32 × String) → List (UInt32 × String)
  | [] => [(n, text)]
  | (m, t) :: rest =>
    if n < m then (n, text) :: (m, t) :: rest
    else if n = m then (n, text) :: rest
    else (m, t) :: insertEntry n text rest

theorem fst_of_mem_insertEntry {n : UInt32} {text : String} {entries : List (UInt32 × String)}
    {e : UInt32 × String} (h : e ∈ insertEntry n text entries) : e.1 = n ∨ e ∈ entries := by
  induction entries with
  | nil => simp_all [insertEntry]
  | cons a rest ih =>
    obtain ⟨m, t⟩ := a
    simp only [insertEntry] at h
    split at h
    · rcases List.mem_cons.1 h with rfl | h
      · exact .inl rfl
      · exact .inr h
    · split at h
      · rcases List.mem_cons.1 h with rfl | h
        · exact .inl rfl
        · exact .inr (List.mem_cons_of_mem _ h)
      · rcases List.mem_cons.1 h with rfl | h
        · exact .inr (List.mem_cons_self ..)
        · exact (ih h).imp_right (List.mem_cons_of_mem _)

theorem pairwise_insertEntry {n : UInt32} {text : String} {entries : List (UInt32 × String)}
    (h : entries.Pairwise (fun a b => a.1 < b.1)) :
    (insertEntry n text entries).Pairwise (fun a b => a.1 < b.1) := by
  induction entries with
  | nil => simp [insertEntry]
  | cons a rest ih =>
    obtain ⟨m, t⟩ := a
    obtain ⟨hm, hrest⟩ := List.pairwise_cons.1 h
    simp only [insertEntry]
    split
    · next hlt =>
      refine List.pairwise_cons.2 ⟨fun e he => ?_, h⟩
      rcases List.mem_cons.1 he with rfl | he
      · exact hlt
      · exact UInt32.lt_trans hlt (hm e he)
    · split
      · next heq =>
        subst heq
        exact List.pairwise_cons.2 ⟨hm, hrest⟩
      · next hnlt hne =>
        refine List.pairwise_cons.2 ⟨fun e he => ?_, ih hrest⟩
        rcases fst_of_mem_insertEntry he with he | he
        · rw [he]
          exact UInt32.lt_of_le_of_ne (UInt32.not_lt.1 hnlt) (fun h => hne h.symm)
        · exact hm e he

/-- The table with one more entry, which replaces that of the same number. -/
def insert (t : LinkTable) (n : UInt32) (text : String) : LinkTable where
  entries := insertEntry n text t.entries
  sorted := pairwise_insertEntry t.sorted

/-- The table of some entries, of which the last of each number counts. -/
def ofList (entries : List (UInt32 × String)) : LinkTable :=
  entries.foldl (fun t e => t.insert e.1 e.2) {}

/-- The namespace that packets of a link type start with; an unknown type is named by its number. -/
def namespaceOf (t : LinkTable) (n : UInt32) : Namespace :=
  match t.entries.lookup n with
  | some text => .parse text
  | none => .link n.toNat

/-- Ethernet, and packets of the internet protocol of either or one version. -/
def standard : LinkTable where
  entries := [(1, "*eth"), (101, "*ip"), (228, "*ipv4"), (229, "*ipv6")]

instance : Inhabited LinkTable := ⟨standard⟩

end LinkTable

end PacketTree
