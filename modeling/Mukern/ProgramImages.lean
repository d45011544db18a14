import Mukern.RootfsLoad

/-! What the programs find in memory when `rootfs_load_all` is done: every page has a frame
of its own, and holds its part of the image or zeros. -/
namespace Mukern
open RadixTree Layout

/- The byte that the kernel reads at `va`. -/
def Memory.load (m : Memory) (va : Word) : Option (BitVec 8) := (m.kernelAccess va).map m.words.byte

/- The page of `va` is mapped to frame `f`, which is neither a table nor free. -/
structure Backed (m : Memory) (va : Word) (f : Nat) : Prop where
  entry : ∃ above e, m.trace va = some (above ++ [e]) ∧ above.length = 3 ∧ entryFrame e = f
  notTable : ∀ p, m.layout.table m.words p ≠ some f
  notFree : f ∉ m.pmm.freeSet

/- No two pages of the set share a frame, and the bytes of each are known. -/
structure Filled (m : Memory) (done : Set Nat) (content : Word → BitVec 8) : Prop where
  apart : ∀ va va' f, pageNumber va ∈ done → pageNumber va' ∈ done → Backed m va f → Backed m va' f → pageNumber va' = pageNumber va
  holds : ∀ va, va.toNat < 2 ^ 47 → pageNumber va ∈ done → m.load va = some (content va)

section
variable {frames : Finset Nat} {done : Set Nat} {m m' : Memory} {va va' : Word} {f f' n : Nat} {v : Word} {content content' : Word → BitVec 8}

theorem dataBacked (data : DataPage m va) : ∃ f, Backed m va f := by
  obtain ⟨above,e,trace,size,notTable,notFree⟩ := data
  exact ⟨entryFrame e,⟨above,e,trace,size,rfl⟩,notTable,notFree⟩

theorem Backed.data (backed : Backed m va f) : DataPage m va := by
  obtain ⟨⟨above,e,trace,size,rfl⟩,notTable,notFree⟩ := backed
  exact ⟨above,e,trace,size,notTable,notFree⟩

theorem Backed.unique (backed : Backed m va f) (backed' : Backed m va f') : f' = f := by
  obtain ⟨above,e,trace,size,rfl⟩ := backed.entry
  obtain ⟨above',e',trace',size',rfl⟩ := backed'.entry
  have same := Option.some.inj (trace'.symm.trans trace)
  have last := (List.append_inj same (size'.trans size.symm)).2
  rw [List.singleton_inj.mp last]

theorem Backed.page (backed : Backed m va f) (same : pageNumber va' = pageNumber va) : Backed m va' f := by
  obtain ⟨above,e,trace,size,frame⟩ := backed.entry
  exact ⟨⟨above,e,(leafSame same).trans trace,size,frame⟩,backed.notTable,backed.notFree⟩

theorem Backed.access (backed : Backed m va f) (low : va.toNat < 2 ^ 47) : m.kernelAccess va = some (f * 4096 + va.toNat % 4096) := by
  obtain ⟨above,e,trace,size,rfl⟩ := backed.entry
  obtain ⟨w,u,found⟩ := walkMapped trace size
  rw [Memory.kernelAccess,canonicalLow low,found]
  rfl

theorem Backed.load (backed : Backed m va f) (low : va.toNat < 2 ^ 47) :
    m.load va = some (m.words.byte (f * 4096 + va.toNat % 4096)) := by
  rw [Memory.load,backed.access low]
  rfl

/- The page stays where it is, and so do the words of its frame. -/
structure Stays (m m' : Memory) (va : Word) (f : Nat) : Prop where
  backed : Backed m' va f
  words : ∀ j < 512, m'.words (f * 512 + j) = m.words (f * 512 + j)

theorem Stays.trans {m'' : Memory} (first : Stays m m' va f) (second : Stays m' m'' va f) : Stays m m'' va f :=
  ⟨second.backed,fun j low => (second.words j low).trans (first.words j low)⟩

theorem Stays.load (stays : Stays m m' va f) (backed : Backed m va f) (low : va.toNat < 2 ^ 47) : m'.load va = m.load va := by
  have place : (f * 4096 + va.toNat % 4096) / 8 = f * 512 + va.toNat % 4096 / 8 := by omega
  have word := stays.words (va.toNat % 4096 / 8) (by omega)
  rw [stays.backed.load low,backed.load low,Words.byte,Words.byte,place,word]

theorem Hangs.stays (tree : PageTree m) (hangs : Hangs m m') (backed : Backed m va f) : Stays m m' va f := by
  have grown := hangs.grown tree
  obtain ⟨above,e,trace,size,frame⟩ := backed.entry
  have notTable : ∀ p, m'.layout.table m'.words p ≠ some f := by
    intro p there
    rcases hangs.fresh tree there with before | free
    · exact backed.notTable p before
    · exact backed.notFree free
  refine ⟨⟨⟨above,e,(grown.trace va).trans trace,size,frame⟩,notTable,fun free => backed.notFree (grown.free free)⟩,fun j low => ?_⟩
  refine grown.outside _ fun p n i there same => ?_
  have cell : m.layout.cell n i = n * 512 + i.val := rfl
  have inside : i.val < 512 := i.isLt
  rw [cell] at same
  have frame : n = f := by omega
  exact notTable p (frame ▸ there)

theorem putStays (tree : PageTree m) (here : m.layout.table m.words (pathOf va 3) = some n) (other : pageNumber va' ≠ pageNumber va)
    (backed : Backed m va' f) : Stays m (m.putLeaf va n v) va' f := by
  obtain ⟨above,e,trace,size,frame⟩ := backed.entry
  refine ⟨⟨⟨above,e,(leafOther here tree other).trans trace,size,frame⟩,fun p there => ?_,backed.notFree⟩,fun j low => ?_⟩
  · exact backed.notTable p ((leafTable here tree).symm.trans there)
  · refine putOther (tableLow here) fun same => ?_
    have cell : m.layout.cell n (slotOf va 1) = n * 512 + (slotOf va 1).val := rfl
    have inside := (slotOf va 1).isLt
    rw [cell] at same
    have frame : n = f := by omega
    exact backed.notTable _ (frame ▸ here)

/- `vmm_map` of another page. -/
theorem mapStays (tree : PageTree m) (other : pageNumber va' ≠ pageNumber va) (pa flags : Word) (backed : Backed m va' f) :
    Stays m (m.vmmMap va pa flags).1 va' f := by
  rcases mapHangs tree va pa flags with ⟨hangs,_⟩ | ⟨m₁,n,hangs,here,result⟩
  · exact hangs.stays tree backed
  · rw [result]
    have first := hangs.stays tree backed
    exact first.trans (putStays (hangs.grown tree).tree here other first.backed)

theorem takeStays (backed : Backed m va f) : Stays m m.takeFrame va f := by
  have fewer : m.takeFrame.pmm.freeSet ⊆ m.pmm.freeSet := Pmm.allocFewer
  exact ⟨⟨backed.entry,backed.notTable,fun free => backed.notFree (fewer free)⟩,fun _ _ => rfl⟩

theorem freshStays (tree : PageTree m) (other : pageNumber va' ≠ pageNumber va) (backed : Backed m va' f) : Stays m (m.mapFresh va) va' f := by
  have taken := takeStays backed
  unfold Memory.mapFresh
  split
  · exact taken.trans (mapStays (takeTree tree) other _ _ taken.backed)
  · exact taken

theorem TablesKept.backed (kept : TablesKept m m') : Backed m' va f ↔ Backed m va f := by
  have table {q} : m'.layout.table m'.words q = m.layout.table m.words q := kept.table
  constructor
  · rintro ⟨⟨above,e,trace,size,frame⟩,notTable,notFree⟩
    exact ⟨⟨above,e,kept.trace.symm.trans trace,size,frame⟩,fun p there => notTable p (table.trans there),kept.pmm ▸ notFree⟩
  · rintro ⟨⟨above,e,trace,size,frame⟩,notTable,notFree⟩
    exact ⟨⟨above,e,kept.trace.trans trace,size,frame⟩,fun p there => notTable p (table.symm.trans there),kept.pmm.symm ▸ notFree⟩

theorem Filled.congr (filled : Filled m done content) (same : ∀ va, va.toNat < 2 ^ 47 → pageNumber va ∈ done → content va = content' va) :
    Filled m done content' :=
  ⟨filled.apart,fun va low member => same va low member ▸ filled.holds va low member⟩

/- The content with some bytes written over it. -/
def overlay (va : Word) (bytes : List (BitVec 8)) (content : Word → BitVec 8) (va' : Word) : BitVec 8 :=
  if va.toNat ≤ va'.toNat then bytes[va'.toNat - va.toNat]?.getD (content va') else content va'

theorem byteAhead {j : Nat} (low : va.toNat + j < 2 ^ 47) : (va + BitVec.ofNat 64 j).toNat = va.toNat + j := by
  rw [BitVec.toNat_add,BitVec.toNat_ofNat]
  omega

theorem writeFilled {bytes : List (BitVec 8)} (filled : Filled m done content) (data : ∀ va, pageNumber va ∈ done → DataPage m va)
    (inside : ∀ j < bytes.length, pageNumber (va + BitVec.ofNat 64 j) ∈ done) (below : va.toNat + bytes.length ≤ 2 ^ 47)
    (written : m.writeBytes va bytes = some m') : Filled m' done (overlay va bytes content) := by
  have kept := writeKept (fun j low => data _ (inside j low)) written
  obtain ⟨span,found,rfl⟩ := Option.map_eq_some_iff.mp written
  obtain ⟨length,each⟩ := spanAccess found
  have place : ∀ j (low : j < span.length), ∃ f, Backed m (va + BitVec.ofNat 64 j) f ∧ span[j] = f * 4096 + (va.toNat + j) % 4096 := by
    intro j low
    have low' : j < bytes.length := length ▸ low
    obtain ⟨f,backed⟩ := dataBacked (data _ (inside j low'))
    have sum : (va + BitVec.ofNat 64 j).toNat = va.toNat + j := byteAhead (by omega)
    have access := backed.access (by omega)
    rw [(each j low').1,List.getElem?_eq_getElem low,sum] at access
    exact ⟨f,backed,Option.some.inj access⟩
  have nodup : span.Nodup := by
    refine List.pairwise_iff_getElem.mpr fun i j low low' before same => ?_
    obtain ⟨f,backed,here⟩ := place i low
    obtain ⟨f',backed',there⟩ := place j low'
    rw [here,there] at same
    have frame : f' = f := by omega
    subst frame
    have page := filled.apart _ _ f' (inside i (length ▸ low)) (inside j (length ▸ low')) backed backed'
    rw [pageNumber,pageNumber,byteAhead (by omega),byteAhead (by omega)] at page
    omega
  refine ⟨fun va va' f member member' backed backed' => ?_,fun va' low member => ?_⟩
  · exact filled.apart va va' f member member' (kept.backed.mp backed) (kept.backed.mp backed')
  · obtain ⟨f,backed⟩ := dataBacked (data va' member)
    rw [(kept.backed.mpr backed).load low]
    by_cases hit : va.toNat ≤ va'.toNat ∧ va'.toNat - va.toNat < span.length
    · obtain ⟨above,hit⟩ := hit
      obtain ⟨f',backed',here⟩ := place _ hit
      have same : va + BitVec.ofNat 64 (va'.toNat - va.toNat) = va' := by
        refine BitVec.eq_of_toNat_eq ?_
        rw [byteAhead (by omega)]
        omega
      rw [same] at backed'
      have frame := backed.unique backed'
      have sum : va.toNat + (va'.toNat - va.toNat) = va'.toNat := by omega
      rw [frame,sum] at here
      rw [← here,Words.storeOwn nodup length hit,overlay,if_pos above,List.getElem?_eq_getElem (length ▸ hit),Option.getD_some]
    · have missed : f * 4096 + va'.toNat % 4096 ∉ (span.zip bytes).map Prod.fst := by
        rw [List.map_fst_zip (by rw [length])]
        intro member'
        obtain ⟨j,low',here⟩ := List.mem_iff_getElem.mp member'
        obtain ⟨f',backed',there⟩ := place j low'
        rw [here] at there
        have frame : f' = f := by omega
        subst frame
        have page := filled.apart _ _ f' member (inside j (length ▸ low')) backed backed'
        rw [pageNumber,pageNumber,byteAhead (by omega)] at page
        omega
      rw [Words.storeOther missed,← backed.load low,filled.holds va' low member,overlay]
      split
      · rename_i above
        rw [List.getElem?_eq_none (by omega),Option.getD_none]
      · rfl

theorem mapOwnFrame {pa flags : Word} (tree : PageTree m) (maps : (m.vmmMap va pa flags).2 = 0) (backed : Backed (m.vmmMap va pa flags).1 va f) :
    f = entryFrame pa := by
  rcases mapHangs tree va pa flags with ⟨_,fails⟩ | ⟨m₁,n,hangs,here,result⟩
  · rw [fails] at maps
    cases maps
  · rw [result] at backed
    obtain ⟨above,e,trace,size,rfl⟩ := backed.entry
    obtain ⟨above',size',own⟩ := leafOwn (v := leafEntry pa flags) here (hangs.grown tree).tree
    rw [if_neg (leafPresent pa flags)] at own
    have same := Option.some.inj (trace.symm.trans own)
    have last := (List.append_inj same (size.trans size'.symm)).2
    rw [List.singleton_inj.mp last,leafFrame]

/- The new page gets a frame that no other page has. -/
theorem mappedFilled (loading : Loading frames m done) (filled : Filled m done content) (high : slotOf va 4 ≠ 0) (new : pageNumber va ∉ done)
    (maps : (m.takeFrame.vmmMap va m.pmm.allocFrame.2 vmUserRw).2 = 0) (free : m.pmm.freeSet ≠ ∅) :
    ∃ c, Filled (m.takeFrame.vmmMap va m.pmm.allocFrame.2 vmUserRw).1 (insert (pageNumber va) done) c ∧
      ∀ va', pageNumber va' ∈ done → c va' = content va' := by
  have mapped := loadingMapped loading high new maps
  have tree₁ := takeTree loading.tree
  obtain ⟨f₀,member₀,_,_,frame₀,_⟩ := takeFree loading.tree free
  have own {va' f} (same : pageNumber va' = pageNumber va) (backed : Backed (m.takeFrame.vmmMap va m.pmm.allocFrame.2 vmUserRw).1 va' f) : f = f₀ :=
    (mapOwnFrame tree₁ maps (backed.page same.symm)).trans frame₀
  have stays {va'} (member : pageNumber va' ∈ done) :
      ∃ f, Backed m va' f ∧ Stays m (m.takeFrame.vmmMap va m.pmm.allocFrame.2 vmUserRw).1 va' f := by
    obtain ⟨f,backed⟩ := dataBacked (loading.data va' member)
    have other : pageNumber va' ≠ pageNumber va := fun same => new (same ▸ member)
    have taken := takeStays backed
    exact ⟨f,backed,taken.trans (mapStays tree₁ other _ _ taken.backed)⟩
  have fresh {va' f} (member : pageNumber va' ∈ done) (backed : Backed (m.takeFrame.vmmMap va m.pmm.allocFrame.2 vmUserRw).1 va' f) : f ≠ f₀ := by
    obtain ⟨f',before,stay⟩ := stays member
    rintro rfl
    rw [stay.backed.unique backed] at member₀
    exact before.notFree member₀
  refine ⟨fun va' => if pageNumber va' = pageNumber va then
    ((m.takeFrame.vmmMap va m.pmm.allocFrame.2 vmUserRw).1.load va').getD 0 else content va',⟨?_,fun va' low member => ?_⟩,fun va' member => ?_⟩
  · rintro va₁ va₂ f (new₁ | old₁) (new₂ | old₂) backed₁ backed₂
    · rw [new₁,new₂]
    · exact absurd (own new₁ backed₁) (fresh old₂ backed₂)
    · exact absurd (own new₂ backed₂) (fresh old₁ backed₁)
    · obtain ⟨f₁,before₁,stay₁⟩ := stays old₁
      obtain ⟨f₂,before₂,stay₂⟩ := stays old₂
      rw [← stay₁.backed.unique backed₁] at before₁
      rw [← stay₂.backed.unique backed₂] at before₂
      exact filled.apart va₁ va₂ f old₁ old₂ before₁ before₂
  · obtain ⟨f,backed⟩ := dataBacked (mapped.data va' member)
    split
    · rw [backed.load low,Option.getD_some]
    · rename_i other
      have old := member.resolve_left other
      obtain ⟨f',before,stay⟩ := stays old
      exact (stay.load before low).trans (filled.holds va' low old)
  · exact if_neg fun same : pageNumber va' = pageNumber va => new (same ▸ member)

theorem pageFilled (loading : Loading frames m done) (filled : Filled m done content) (run : PageRun va 1) (new : pageNumber va ∉ done)
    (free : m.pmm.freeSet ≠ ∅) (loaded : m.mapZeroedPage va = some m') :
    Filled m' (insert (pageNumber va) done) fun va' => if pageNumber va' = pageNumber va then 0 else content va' := by
  have high : slotOf va 4 ≠ 0 := by
    have first := (runPage run (j := 0) (by decide)).2
    rwa [BitVec.add_zero] at first
  have maps := pageMaps loading high new loaded
  have mapped := loadingMapped loading high new maps
  obtain ⟨c,filled',old⟩ := mappedFilled loading filled high new maps free
  have length : (List.replicate 4096 (0 : BitVec 8)).length = 4096 := List.length_replicate
  have below := run.below
  have aligned := run.aligned
  have bytes : ∀ j < 4096, (List.replicate 4096 (0 : BitVec 8))[j]? = some 0 := fun j low => by rw [List.getElem?_replicate,if_pos low]
  unfold Memory.mapZeroedPage at loaded
  generalize List.replicate 4096 (0 : BitVec 8) = zeros at loaded length bytes
  have written := writeFilled filled' mapped.data (fun j low => ?_) (by omega) loaded
  · refine written.congr fun va' low member => ?_
    have page : pageNumber va' = pageNumber va ↔ va'.toNat / 4096 = va.toNat / 4096 := by
      rw [pageNumber,pageNumber]
      omega
    by_cases same : pageNumber va' = pageNumber va
    · have same' := page.mp same
      rw [if_pos same,overlay,if_pos (by omega),bytes _ (by omega),Option.getD_some]
    · have other := mt page.mpr same
      rw [if_neg same,overlay,old va' (member.resolve_left same)]
      split
      · rw [List.getElem?_eq_none (by omega),Option.getD_none]
      · rfl
  · rw [pageBytes aligned (length ▸ low)]
    exact Set.mem_insert _ _

/- What the loader puts at `va`: the image, and zeros behind it. -/
def Prog.initial (pr : Prog) : Word → BitVec 8 := overlay pr.base pr.image fun _ => 0

end
end Mukern
