import CilMmix.Command.Invocation
import CilMmix.Proofs.Module.Binary

/-! Requests in a directory. A file that is written is read back, no other file changes, and a module that
was packed is listed as it was before. -/

namespace CilMmix

namespace Directory

variable {d after : Directory} {path : String} {contents : List UInt8} {place : List String}

theorem isDirectory_iff {names : List String} : d.isDirectory names = true ↔
    names = [] ∨ ∃ f ∈ d.files, names.length < f.1.length ∧ names <+: f.1 := by
  simp [isDirectory]

/-- What is above a directory is a directory. -/
theorem isDirectory_above {names names' : List String} (h : names <+: names')
    (hd : d.isDirectory names' = true) : d.isDirectory names = true := by
  rw [isDirectory_iff] at hd ⊢
  rcases hd with rfl | ⟨f, hf, hlt, hpre⟩
  · exact .inl (List.prefix_nil.mp h)
  · exact .inr ⟨f, hf, Nat.lt_of_le_of_lt h.length_le hlt, h.trans hpre⟩

/-- A place is in a directory. -/
theorem exists_of_follow {inside names : List String} (hinside : d.isDirectory inside = true)
    (h : d.follow inside names = some place) :
    ∃ above name, place = above ++ [name] ∧ d.isDirectory above = true := by
  fun_induction follow d inside names with
  | case1 | case2 | case5 | case8 => cases h
  | case3 inside name =>
    cases h
    exact ⟨inside, name, rfl, hinside⟩
  | case4 _ _ _ _ _ ih => exact ih hinside h
  | case6 inside _ _ _ _ ih =>
    exact ih (isDirectory_above (List.dropLast_prefix inside) hinside) h
  | case7 _ _ _ _ _ _ hdir ih => exact ih hdir h

theorem exists_of_place? (h : d.place? path = some place) :
    ∃ above name, place = above ++ [name] ∧ d.isDirectory above = true := by
  unfold place? at h
  split at h
  · cases h
  · exact exists_of_follow rfl h

/-- The file at a place is replaced, or added after the others. -/
theorem write?_eq_some : d.write? path contents = some after ↔
    ∃ place, d.place? path = some place ∧ d.isDirectory place = false ∧
      after = ⟨d.files.filter (fun f => f.1 != place) ++ [(place, contents)]⟩ := by
  unfold write?
  constructor
  · intro h
    obtain ⟨place, hp, h⟩ := Option.bind_eq_some_iff.mp h
    split at h
    · cases h
    · rename_i hd
      cases h
      exact ⟨place, hp, Bool.eq_false_iff.mpr hd, rfl⟩
  · rintro ⟨place, hp, hd, rfl⟩
    refine Option.bind_eq_some_iff.mpr ⟨place, hp, ?_⟩
    rw [hd]
    rfl

/-- A file that is written makes no directory and takes none away. -/
theorem isDirectory_write? (h : d.write? path contents = some after) (names : List String) :
    after.isDirectory names = d.isDirectory names := by
  obtain ⟨place, hp, -, rfl⟩ := write?_eq_some.mp h
  obtain ⟨above, name, rfl, habove⟩ := exists_of_place? hp
  rw [Bool.eq_iff_iff]
  constructor
  · intro hd
    rcases isDirectory_iff.mp hd with rfl | ⟨f, hf, hlt, hpre⟩
    · rfl
    rcases List.mem_append.mp hf with hf | hf
    · exact isDirectory_iff.mpr (.inr ⟨f, (List.mem_filter.mp hf).1, hlt, hpre⟩)
    · -- The names on the way to the new file end in its directory.
      cases List.mem_singleton.mp hf
      rcases List.prefix_concat_iff.mp hpre with rfl | hpre
      · exact absurd hlt (Nat.lt_irrefl _)
      · exact isDirectory_above hpre habove
  · intro hd
    rcases isDirectory_iff.mp hd with rfl | ⟨f, hf, hlt, hpre⟩
    · rfl
    refine isDirectory_iff.mpr (.inr ?_)
    by_cases hat : f.1 = above ++ [name]
    · exact ⟨_, List.mem_append_right _ (List.mem_singleton_self _), hat ▸ hlt, hat ▸ hpre⟩
    · exact ⟨f, List.mem_append_left _ (List.mem_filter.mpr ⟨hf, by simpa using hat⟩), hlt, hpre⟩

theorem place?_write? (h : d.write? path contents = some after) (other : String) :
    after.place? other = d.place? other := by
  have hfollow (inside names : List String) : after.follow inside names = d.follow inside names := by
    fun_induction follow d inside names <;> simp_all [follow, isDirectory_write? h]
  unfold place?
  split
  · rfl
  · exact hfollow ..

theorem lookup_filter_ne {files : List (List String × List UInt8)} {other : List String}
    (hne : other ≠ place) :
    (files.filter fun f => f.1 != place).lookup other = files.lookup other := by
  induction files with
  | nil => rfl
  | cons f files ih =>
    obtain ⟨key, value⟩ := f
    by_cases hkey : key = place
    · subst hkey
      have hother : (other == key) = false := by simpa using hne
      simp [List.lookup_cons, hother, ih]
    · simp [hkey, List.lookup_cons, ih]

theorem lookup_filter_self {files : List (List String × List UInt8)} :
    (files.filter fun f => f.1 != place).lookup place = none := by
  rw [List.lookup_eq_none_iff]
  intro f hf
  have hne := (List.mem_filter.mp hf).2
  simp only [bne_iff_ne] at hne
  simpa using fun he => hne he.symm

theorem read?_write? (h : d.write? path contents = some after) : after.read? path = some contents := by
  have hplace := place?_write? h path
  obtain ⟨place, hp, -, rfl⟩ := write?_eq_some.mp h
  rw [read?, hplace, hp]
  simp [List.lookup_append, lookup_filter_self]

/-- Another file is what it was. -/
theorem read?_write?_of_ne (h : d.write? path contents = some after) {other : String}
    (hne : d.place? other ≠ d.place? path) : after.read? other = d.read? other := by
  have hplace := place?_write? h other
  obtain ⟨place, hp, -, rfl⟩ := write?_eq_some.mp h
  rw [read?, read?, hplace]
  cases ho : d.place? other with
  | none => rfl
  | some elsewhere =>
    have hother : elsewhere ≠ place := fun he => hne (by rw [ho, hp, he])
    have hnew : (elsewhere == place) = false := by simpa using hother
    simp [List.lookup_append, lookup_filter_ne hother, List.lookup_cons, hnew]

end Directory

namespace Invocation

/-- The file that a request writes. -/
def output? : Invocation → Option String
  | version | dump _ => none
  | build path output _ => some (output.getD (FileName.withExtension path "mms"))
  | pack _ output => some output

theorem respond_write {request : Invocation} {contents : Option (List UInt8)} {path : String}
    {bytes : List UInt8} (h : request.respond contents = .ok (.write path bytes)) :
    request.output? = some path := by
  cases request with
  | version => cases h
  | dump module =>
    simp only [respond] at h
    split at h <;> cases h
  | build module output options =>
    simp only [respond] at h
    split at h
    · cases h
    · split at h <;> cases h
      rfl
  | pack module output =>
    simp only [respond] at h
    split at h <;> cases h
    rfl

/-- A request changes no file but the one that it writes. -/
theorem runIn_read? {d after : Directory} {request : Invocation} {printed other : String}
    (h : request.runIn d = .ok (printed, after))
    (hne : ∀ path, request.output? = some path → d.place? other ≠ d.place? path) :
    after.read? other = d.read? other := by
  unfold runIn at h
  split at h
  · cases h
  · cases h
    rfl
  · rename_i path contents he
    split at h
    · rename_i after' hw
      cases h
      exact Directory.read?_write?_of_ne hw (hne path (respond_write he))
    · cases h

/-- A module that was packed is listed as it was before. -/
theorem dump_of_pack {d after : Directory} {path output printed : String} {m : Module}
    (hm : Module.ofTextFile (d.read? path) = .ok m) (hsize : m.toBytes.length < UInt64.size)
    (hbinary : FileName.extension? output ≠ some "json")
    (h : (pack path output).runIn d = .ok (printed, after)) :
    (dump output).runIn after = .ok (m.listing, after) := by
  have hread : after.read? output = some m.toBytes := by
    simp only [runIn, input?, Option.bind_some, respond, hm] at h
    split at h
    · rename_i after' hw
      cases h
      exact Directory.read?_write? hw
    · cases h
  have hbytes : Module.ofBytes m.toBytes = .ok m := by
    have hwhole := (Module.reads hsize).whole []
    rw [List.append_nil] at hwhole
    rw [Module.ofBytes, hwhole]
    rfl
  simp only [runIn, input?, Option.bind_some, respond, hread, Module.ofFile, if_neg hbinary,
    Module.ofBinaryFile, hbytes]

end Invocation

end CilMmix
