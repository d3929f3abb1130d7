import LeveledTypes.Proofs.Session.History

/-!
# Where entries come from

An entry that is valid for a module was stored by an earlier call that reported the module as
checked, with the digest that it has now. So the module, and whatever is below it, had the same text
then.
-/
namespace LeveledTypes.Work

variable {dir : FilePath} {disk : Disk} {N : Set String} {S : List Source}
  {sets : List (List Source)} {h : List Finished} {w w' : Workspace}

/-- An entry that a call has stored has the key of its module, with what the text of the module
gave. -/
theorem Finished.Stored.hasKey {f : Finished} {n : String} {e : CacheEntry} (h : f.Stored n e) :
    e.module = n ∧ ∃ s ∈ f.sources, s.name = n ∧ s.Gives e.definitions ∧
    HasKey f.sources n ⟨s.text, e.deps⟩ ∧
      e.digest = Key.digest ⟨s.text, e.deps⟩ := by
  obtain ⟨r, -, -, rfl, -, hentry⟩ := h
  obtain ⟨⟨s, hs, hname, htext, -⟩, -⟩ := hentry.key
  refine ⟨hentry.module, s, hs, hname, hentry.gives.congr hname.symm htext.symm, ?_, ?_⟩
  · rw [htext]
    exact hentry.key
  · rw [htext]
    exact hentry.digest

theorem toList_toArray (bs : Bytes) : (⟨bs.toArray⟩ : ByteArray).toList = bs := by
  rw [Codec.toList_eq]

/-- An entry that fits the format is read back from the file that was made of it. -/
theorem eq_nameOnly_of_decode {e e' : CacheEntry} (he : e.Fits)
    (hdecode : CacheEntry.decode (⟨e.encode.toArray⟩ : ByteArray).toList = .ok e') :
    e' = e.nameOnly := by
  rw [toList_toArray, CacheEntry.decode_encode he] at hdecode
  exact (Except.ok.inj hdecode).symm

/-- A file in the place of an entry that is valid for a module has been stored by a call of the
history. -/
theorem OnlyRecorded.stored {n : String} {k : Key} {c : ByteArray} {e : CacheEntry}
    (hrecorded : OnlyRecorded dir N h disk) (hn : n ∈ N) (hkey : HasKey S n k)
    (hfile : disk.fileAt (disk.placeOf (entryPath dir n)) = some c)
    (hdecode : CacheEntry.decode c.toList = .ok e) (hvalid : e.digest = k.digest ∧
      e.deps = k.deps) :
    ∃ f ∈ h, ∃ e', f.Stored n e' ∧ c = ⟨e'.encode.toArray⟩ ∧ e = e'.nameOnly ∧
      e'.digest = k.digest ∧ e'.deps = k.deps := by
  obtain ⟨e', rfl, hfits, hrecorded⟩ := hrecorded n hn c hfile
  cases hrecorded with
  | prelude hname => exact absurd hname hkey.ne_prelude
  | @module f hf hstored =>
    obtain rfl := eq_nameOnly_of_decode hfits hdecode
    exact ⟨f, hf, e', hstored, rfl, rfl, hvalid⟩

/-- A module that a call reports as cached was checked by an earlier call, which stored the entry
that is there still; the module and all that it imports, directly or not, had the same texts. -/
def Finished.TakesFresh (f : Finished) (dir : FilePath) (h : List Finished) : Prop :=
  ∀ r, f.Reports r → r.status = .cached → ∃ g ∈ h, ∃ e : CacheEntry, g.Stored r.name e ∧
    r.digest = some e.digest ∧
    f.workspace.disk.read (entryPath dir r.name) = .ok ⟨e.encode.toArray⟩ ∧
    SameBelow f.sources g.sources r.name

/-- A valid entry was stored by a call that checked a module of the same key. Keys hold the digests
of dependencies, so that the texts below the module are the same. -/
theorem takesFresh (hist : History dir disk h w)
    (hc : Cacheable dir disk (S :: h.map (·.sources))) : (finished S w).TakesFresh dir h := by
  intro r hr hstatus
  have hS : S ∈ S :: h.map (·.sources) := List.mem_cons_self
  have hends := hist.ends hc
  obtain ⟨reports, houtcome, hr⟩ := hr
  rw [houtcome] at hends
  cases hends with
  | done henters hbegins hwaves hchecked hcontinues =>
    have hok : r.isOk = true := by simp [ModuleReport.isOk, ModuleStatus.isOk, hstatus]
    obtain ⟨p, hp, rfl⟩ := List.mem_map.mp ((hchecked.valid.mem_ordered hok).mp hr)
    have hmem := List.mem_append_left ([] : List (ℕ × ModuleReport)) hp
    have hname := mem_named hS _ (List.mem_of_getElem? (hchecked.valid.getElem?_source hmem))
    cases hchecked.valid.accounted p hmem with
    | failed hfailed => simp [hok] at hfailed
    | checked hstatus' => simp [hstatus] at hstatus'
    | cached _ hkey hdigest hfile hread hdecode hmodule hvalid hnames =>
      obtain ⟨g, hg, e, hstored, rfl, -, hdigest', hdeps⟩ :=
        hchecked.ready.recorded.stored hname hkey hfile hdecode hvalid
      obtain ⟨hmodule', s, -, -, -, hkey', hdigest''⟩ := hstored.hasKey
      refine ⟨g, hg, e, hstored, by rw [hdigest, hdigest'], hread, ?_⟩
      refine sameBelow_of_digested hc.keys hS (sources_mem g hg) (hc.distinct S hS)
        (hc.distinct _ (sources_mem g hg)) hkey.to_digested ?_ hkey.ne_prelude
      rw [← hdigest', hdigest'']
      exact hkey'.to_digested

end LeveledTypes.Work
