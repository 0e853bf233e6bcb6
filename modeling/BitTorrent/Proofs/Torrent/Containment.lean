import BitTorrent.Proofs.Except
import BitTorrent.Proofs.Path
import BitTorrent.Torrent

/-! Where the files of a torrent go on disk. Their paths are texts out of the torrent and are
joined to a root as they are, so they stay within it as far as they are contained. Reading a
torrent does not ask for that. -/

namespace BitTorrent.Torrent

/-- A file, of a torrent that was accepted or of any other, is put within the root for every choice
of the root exactly if no segment of its path is absolute and no step through its segments goes up
further than others have gone down. -/
theorem forall_within_pathIn_iff (f : File) :
    (∀ root, Path.Within root (f.pathIn root)) ↔ Path.Contained f.path := by
  constructor
  · intro h
    exact Path.contained_of_within (h "")
  · intro h root
    exact h.within root

/-- A torrent is accepted with an absolute path, which replaces the root, and one that goes up in
front of its name. -/
theorem pathIn_leaves_root :
    let data := Bytes.ofText ("d8:announce1:a4:infod5:filesld6:lengthi1e4:pathl2:/xee" ++
      "d6:lengthi1e4:pathl2:..1:xeee4:name1:r12:piece lengthi1e6:pieces0:ee")
    ∃ m f g, ofBytes data = .ok m ∧ m.info.layout = .multi [f, g] ∧
      f.pathIn "r" = "/x" ∧ ¬Path.Within "r" (f.pathIn "r") ∧
      g.pathIn "r" = "r/../x" ∧ ¬Path.Within "r" (g.pathIn "r") := by
  intro data
  let f : File := ⟨["/x"], 1, 0⟩
  let g : File := ⟨["..", "x"], 1, 1⟩
  have hread : (fun m => m.info.layout) <$> ofBytes data = .ok (.multi [f, g]) := by
    decide +kernel
  obtain ⟨m, hm, hlayout⟩ := map_eq_ok_iff.mp hread
  have hf : f.pathIn "r" = "/x" := by decide +kernel
  have hg : g.pathIn "r" = "r/../x" := by decide +kernel
  refine ⟨m, f, g, hm, hlayout, hf, ?_, hg, ?_⟩
  · rw [hf]
    rintro ⟨hfront, -⟩
    revert hfront
    decide +kernel
  · rw [hg]
    rintro ⟨-, below, hbelow⟩
    have hplace : Path.resolve "r/../x".toList = [.name ['x']] := by decide +kernel
    have hroot : Path.resolve "r".toList = [.name ['r']] := by decide +kernel
    rw [hplace, hroot] at hbelow
    cases below <;> simp at hbelow

end BitTorrent.Torrent
